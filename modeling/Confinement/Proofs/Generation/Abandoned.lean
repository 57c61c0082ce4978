import Confinement.Proofs.Generation.Failure
import Confinement.Proofs.Generation.Stopped
import Confinement.Proofs.Selinux.Demands

/-!
# Abandoning a generation that fails

A generation that fails has put back the entry of the member that has failed, and nothing of what
the members keep. A member of contexts reserves a level as the last thing that it does, so the level
is that of the domain's context then, and releasing the label on the stack gives it back to the
first member of contexts. That member is the one that has reserved the level, unless it was passed
over before another one supplied the entry.
-/

namespace Confinement

open Selinux (Levels heldLevel)

/-! ### Members that mind their own entries -/

/-- Whether it succeeds or fails, the driver changes at most the labels of its own entry when it
releases a label. -/
structure Driver.EmptiesOwnEntry (dr : Driver) : Prop where
  hooks : ∀ (calls : List Call) (d d' : Definition) (r : Except Error Unit),
    dr.hooks.perform calls .release d = some (r, d') → d.Relabelled dr.name d'
  technology : ∀ s : Scene, s.driver = dr.name →
    s.definition.Relabelled dr.name (dr.technology.perform .release s).2.definition

theorem Driver.emptiesOwnEntry_of_mem_workers {dr : Driver} (h : dr ∈ workers) :
    dr.EmptiesOwnEntry := by
  simp only [workers, List.mem_cons, List.not_mem_nil, or_false] at h
  rcases h with rfl | rfl | rfl | rfl
  · refine ⟨by simp [selinux], fun s _ => ?_⟩
    change s.definition.Relabelled Selinux.model (Selinux.release s).2.definition
    generalize hr : Selinux.release s = out
    have hout := Selinux.released s
    rw [hr] at hout
    cases hout with
    | missing found => exact .refl Selinux.model s.definition
    | fixed found type => exact .refl Selinux.model s.definition
    | freed found type labelled parsed leveled kept => exact .of_edit fun e => ⟨_, _, rfl⟩
    | cleared found type unleveled legible => exact .of_edit fun e => ⟨_, _, rfl⟩
    | refused found type labelled failed => exact .of_edit fun e => ⟨.none, e.imageLabel, rfl⟩
  · refine ⟨by simp [apparmor], fun s _ => ?_⟩
    have hunlabelled : s.definition.Relabelled AppArmor.model (AppArmor.unlabelled s.definition) :=
      .of_edit fun e => by
        by_cases ht : e.type = .dynamic
        · exact ⟨.none, .none, by rw [if_pos ht]; rfl⟩
        · exact ⟨e.label, e.imageLabel, by rw [if_neg ht]; rfl⟩
    change s.definition.Relabelled AppArmor.model (AppArmor.perform .release s).2.definition
    unfold AppArmor.perform
    cases hr : s.rules with
    | error e => exact .refl AppArmor.model s.definition
    | ok rules => exact hunlabelled
  · exact ⟨by simp [dac], fun s _ => .refl _ s.definition⟩
  · exact ⟨by simp [none], fun s _ => .refl _ s.definition⟩

theorem Driver.ne_selinux {dr : Driver} (h : dr.name ≠ Selinux.model) : dr ≠ .selinux :=
  fun hd => h (congrArg Driver.name hd)

/-- A manager of contexts with its levels, or a manager of another name whose driver changes no
entries but its own. -/
inductive Manager.Minds (m : Manager) : Prop
  | contexts {levels : Levels} (driver : m.driver = .selinux) (state : m.state = .selinux levels)
  | other (name : m.driver.name ≠ Selinux.model) (fills : m.driver.FillsOwnEntry)
      (empties : m.driver.EmptiesOwnEntry)

theorem Manager.Minds.members?_eq_none {m : Manager} (h : m.Minds) : m.members? = none := by
  cases h with
  | contexts driver state => exact Manager.members?_of_ne (by simp [driver, Driver.selinux])
  | other name fills empties => exact Manager.members?_of_ne fills.single

namespace Staff

/-- The managers with the numbers are of contexts or mind their own entries. -/
def Mind (M : Staff) (ns : List ManagerId) : Prop := ∀ n ∈ ns, ∃ m, M n = some m ∧ m.Minds

/-- The managers of contexts are the same in both. -/
def SameContexts (M N : Staff) : Prop :=
  ∀ n m, m.driver = .selinux → (N n = some m ↔ M n = some m)

/-- None of the numbers is of a manager of contexts. -/
def Foreign (M : Staff) (ns : List ManagerId) : Prop :=
  ∀ n ∈ ns, ∀ m, M n = some m → m.driver ≠ .selinux

variable {M M' N : Staff} {n : ManagerId} {m : Manager} {ns : List ManagerId}

theorem SameContexts.refl (M : Staff) : M.SameContexts M := fun _ _ _ => Iff.rfl

theorem SameContexts.trans (h : M.SameContexts N) (h' : N.SameContexts M') : M.SameContexts M' :=
  fun n m hd => (h' n m hd).trans (h n m hd)

theorem SameContexts.symm (h : M.SameContexts N) : N.SameContexts M :=
  fun n m hd => (h n m hd).symm

theorem SameContexts.update (h : M.SameContexts N) (n : ManagerId) (o : Option Manager) :
    Staff.SameContexts (Function.update M n o) (Function.update N n o) := by
  intro k m hd
  by_cases hk : k = n
  · subst hk
    rw [Function.update_self, Function.update_self]
  · rw [Function.update_of_ne hk, Function.update_of_ne hk]
    exact h k m hd

theorem SameContexts.updated (h : Staff.SameContexts (Function.update M n (some m)) N)
    (hd : m.driver = .selinux) : N n = some m :=
  (h n m hd).mpr (Function.update_self ..)

/-- What other managers keep is no matter. -/
theorem SameContexts.of_update (hm : M n = some m) (hd : m.driver ≠ .selinux)
    (state : DriverState) : M.SameContexts (Function.update M n (some { m with state })) := by
  intro k mk hdk
  by_cases hk : k = n
  · subst hk
    rw [Function.update_self, hm]
    refine iff_of_false ?_ ?_
    · rintro ⟨rfl⟩
      exact hd hdk
    · rintro ⟨rfl⟩
      exact hd hdk
  · rw [Function.update_of_ne hk]

theorem Foreign.congr (h : M.Foreign ns) (hsame : M.SameContexts N) : N.Foreign ns :=
  fun k hk m hm hd => h k hk m ((hsame k m hd).mp hm) hd

/-- What becomes of a manager of contexts is no matter to the others. -/
theorem Foreign.update (h : M.Foreign ns) (hm : M n = some m) (hd : m.driver = .selinux)
    (o : Option Manager) : Staff.Foreign (Function.update M n o) ns := by
  intro k hk mk hmk
  by_cases hkn : k = n
  · exact absurd hd (h n (hkn ▸ hk) m hm)
  · rw [Function.update_of_ne hkn] at hmk
    exact h k hk mk hmk

/-- Either no number is of a manager of contexts, or there is a first one. -/
theorem foreign_or_exists_first (M : Staff) (ns : List ManagerId) :
    M.Foreign ns ∨ ∃ before n after m, ns = before ++ n :: after ∧ M n = some m ∧
      m.driver = .selinux ∧ M.Foreign before := by
  induction ns with
  | nil => exact .inl nofun
  | cons n ns ih =>
    by_cases hn : ∃ m, M n = some m ∧ m.driver = .selinux
    · obtain ⟨m, hm, hd⟩ := hn
      exact .inr ⟨[], n, ns, m, rfl, hm, hd, nofun⟩
    · have hne : ∀ m, M n = some m → m.driver ≠ .selinux := fun m hm hd => hn ⟨m, hm, hd⟩
      rcases ih with hall | ⟨before, k, after, m, rfl, hm, hd, hbefore⟩
      · exact .inl (List.forall_mem_cons.mpr ⟨hne, hall⟩)
      · exact .inr ⟨n :: before, k, after, m, rfl, hm, hd, List.forall_mem_cons.mpr ⟨hne, hbefore⟩⟩

end Staff

/-! ### Their turns -/

/-- A turn that a manager of contexts has in full, while of another manager it is only known that
the entry of the contexts stays as it is. -/
inductive Manager.Minded (turn : Manager → Definition → DriverState → Definition → Prop)
    (m : Manager) (d : Definition) : DriverState → Definition → Prop
  | contexts {state : DriverState} {d' : Definition} (driver : m.driver = .selinux)
      (step : turn m d state d') : m.Minded turn d state d'
  | other {state : DriverState} {d' : Definition} (name : m.driver.name ≠ Selinux.model)
      (same : d'.findEntry Selinux.model = d.findEntry Selinux.model) : m.Minded turn d state d'

namespace Selinux

/-- A domain whose context is still to be made up holds no level. -/
theorem heldLevel_of_unmade {d : Definition}
    (h : ∀ e, d.findEntry model = some e → e.type = .dynamic → e.label = none) :
    heldLevel d = .ok none := by
  cases hf : d.findEntry model with
  | none => exact heldLevel_of_missing hf
  | some e =>
    by_cases ht : e.type = .dynamic
    · exact heldLevel_of_unlabelled hf (h e hf ht)
    · exact heldLevel_of_ne hf ht

/-- An entry that is emptied holds no level. -/
theorem heldLevel_emptied (d : Definition) : heldLevel (d.emptied .selinux) = .ok none := by
  refine heldLevel_of_unmade fun x hx ht => ?_
  have hfind := Definition.findEntry_emptied d .selinux
  obtain ⟨e, -, rfl⟩ := Option.map_eq_some_iff.mp (hfind.symm.trans hx)
  have hmakes : Technology.selinux.MakesOnce e := Technology.makesOnce_emptied.mp ⟨.inl rfl, ht⟩
  change (Technology.selinux.emptied e).label = none
  rw [Technology.emptied_of_makesOnce hmakes]
  rfl

end Selinux

/-- After a turn in a release the level in the domain's context can be read if it could before. -/
theorem Manager.Minded.heldLevel_ok {m : Manager} {d d' : Definition} {state : DriverState}
    (h : m.Minded Manager.Frees d state d') {held : Option String}
    (hd : heldLevel d = .ok held) : ∃ held', heldLevel d' = .ok held' := by
  cases h with
  | contexts driver step =>
    rcases step.heldLevel_cases with hnone | hsame
    · exact ⟨none, hnone⟩
    · exact ⟨held, hsame.trans hd⟩
  | other name same => exact ⟨held, (Selinux.heldLevel_congr same).trans hd⟩

/-- Whoever keeps levels keeps levels after a turn. -/
def Turns.KeepLevels (turn : Manager → Definition → DriverState → Definition → Prop) : Prop :=
  ∀ m d state d', turn m d state d' → ∀ levels, m.state = .selinux levels →
    ∃ levels', state = .selinux levels'

theorem Manager.Labels.keepLevels : Turns.KeepLevels Labels := by
  intro m d state d' h levels hstate
  rcases h.state_cases with rfl | ⟨-, levels', -, rfl⟩
  · exact ⟨levels, hstate⟩
  · exact ⟨levels', rfl⟩

theorem Manager.Frees.keepLevels : Turns.KeepLevels Frees := by
  intro m d state d' h levels hstate
  rw [h.state, hstate]
  simp only [DriverState.freed]
  split <;> exact ⟨_, rfl⟩

namespace Staff

variable {M : Staff} {n : ManagerId} {m : Manager} {ns : List ManagerId}

theorem Mind.tail (h : M.Mind (n :: ns)) : M.Mind ns := fun k hk => h k (List.mem_cons_of_mem n hk)

theorem Mind.levels (h : M.Mind ns) (hn : n ∈ ns) (hm : M n = some m)
    (hd : m.driver = .selinux) : ∃ levels, m.state = .selinux levels := by
  have hminds : m.Minds := of_mem h hn hm
  cases hminds with
  | contexts driver state => exact ⟨_, state⟩
  | other name fills empties => exact absurd hd (Driver.ne_selinux name)

theorem Mind.update {turn : Manager → Definition → DriverState → Definition → Prop}
    (hturn : Turns.KeepLevels turn) (h : M.Mind ns) (hm : M n = some m) {d d' : Definition}
    {state : DriverState} (hstep : m.Minded turn d state d') :
    Staff.Mind (Function.update M n (some { m with state })) ns := by
  refine forall_update h hm fun hminds => ?_
  cases hminds with
  | contexts driver kept =>
    cases hstep with
    | contexts _ step =>
      obtain ⟨levels', hstate⟩ := hturn m d state d' step _ kept
      exact .contexts driver hstate
    | other name same => exact absurd driver (Driver.ne_selinux name)
  | other name fills empties => exact .other name fills empties

end Staff

namespace Engine

variable {s : Engine} {id n : ManagerId} {m : Manager} {ns : List ManagerId} {st : Stage}

/-- Whatever a manager without members is asked, no other manager changes. -/
theorem manager?_edit (hm : s.manager? n = some m) (hn : m.members? = none) {op : Operation}
    (hop : op ≠ .verify) (d : Definition) :
    ∃ state, (edit n op ⟨s, d⟩).2.engine.manager? =
      Function.update s.manager? n (some { m with state }) := by
  cases hh : m.driver.hooks.perform s.trace op d with
  | some out =>
    refine ⟨m.state, ?_⟩
    rw [edit_of_hooks_some hm hn hop hh, Stage.engine_redefine, ← hm, Function.update_eq_self]
    rfl
  | none =>
    have hnoted : (Stage.record ⟨s, d⟩ n m.driver op).engine.manager? n = some m := hm
    rw [edit_of_hooks_none hm hn hop hh]
    exact ⟨_, Stage.manager?_leave_eq hnoted op _⟩

/-- The driver changes no more than the labels of its own entry when it releases, also when it
fails. -/
theorem relabelled_edit_release (hm : s.manager? n = some m) (hn : m.members? = none)
    (he : m.driver.EmptiesOwnEntry) (d : Definition) :
    d.Relabelled m.driver.name (edit n .release ⟨s, d⟩).2.definition := by
  cases hh : m.driver.hooks.perform s.trace .release d with
  | some out =>
    rw [edit_of_hooks_some hm hn (by decide) hh]
    exact he.hooks _ _ _ _ hh
  | none =>
    rw [edit_of_hooks_none hm hn (by decide) hh, Stage.definition_leave rfl]
    exact he.technology _ rfl

/-- A step of a member is a turn, whether it succeeds or fails, or it fails and has no effect. -/
theorem minded_of_generateOne (hm : st.engine.manager? n = some m) (h : m.Minds) :
    (∃ state, m.Minded Manager.Labels st.definition state (generateOne n st).2.definition ∧
      (generateOne n st).2.engine.manager? =
        Function.update st.engine.manager? n (some { m with state })) ∨
    (∃ e, (generateOne n st).1 = .error e) ∧
      (generateOne n st).2.definition = st.definition ∧
      (generateOne n st).2.engine.manager? = st.engine.manager? := by
  cases h with
  | contexts driver state =>
    have hworks : m.driver ∈ Driver.workers := by simp [driver, Driver.workers]
    rcases generateOne_cases_labels hm hworks with
      ⟨state, d', t, hlabels, hg, ht⟩ | ⟨e, t, hg, ht⟩
    · rw [hg]
      exact .inl ⟨state, .contexts driver hlabels, ht⟩
    · rw [hg]
      exact .inr ⟨⟨e, rfl⟩, rfl, ht⟩
  | other name fills empties =>
    have hsame : (generateOne n st).2.definition.findEntry Selinux.model =
        st.definition.findEntry Selinux.model := by
      rcases stepEnds hm fills with ⟨-, hsettles⟩ | ⟨e, st', hg, hfails⟩
      · exact hsettles.findEntry_of_ne (Ne.symm name)
      · rw [hg, hfails.definition]
    have hself : ∃ state, st.engine.manager? =
        Function.update st.engine.manager? n (some { m with state }) :=
      ⟨m.state, by rw [← hm, Function.update_eq_self]⟩
    obtain ⟨state, ht⟩ := generateOne_engine (R := fun t => ∃ state, t.manager? =
        Function.update st.engine.manager? n (some { m with state }))
      hself (manager?_edit hm (Manager.members?_of_ne fills.single) (by decide))
    exact .inl ⟨state, .other name hsame, ht⟩

/-- A generation, whether it succeeds or fails, is made of turns of the first members. -/
theorem exists_turns_of_generateEach (hs : Staff.Mind st.engine.manager? ns) :
    ∃ done later, ns = done ++ later ∧ Turns (Manager.Minded Manager.Labels) done
      st.engine.manager? st.definition (generateEach ns st).2.engine.manager?
      (generateEach ns st).2.definition := by
  induction ns generalizing st with
  | nil => exact ⟨[], [], rfl, .nil⟩
  | cons n ns ih =>
    obtain ⟨m, hm, hminds⟩ := hs n (List.mem_cons_self ..)
    have hstep := minded_of_generateOne hm hminds
    rw [generateEach]
    cases hg : generateOne n st with
    | mk r mid =>
      rw [hg] at hstep
      rcases hstep with ⟨state, hturn, ht⟩ | ⟨⟨e, rfl⟩, hd, ht⟩
      · have ht : mid.engine.manager? =
            Function.update st.engine.manager? n (some { m with state }) := ht
        cases r with
        | error e =>
          refine ⟨[n], ns, rfl, .cons hm hturn ?_⟩
          rw [← ht]
          exact .nil
        | ok u =>
          have hmind : Staff.Mind mid.engine.manager? ns := by
            rw [ht]
            exact (Staff.Mind.tail hs).update Manager.Labels.keepLevels hm hturn
          obtain ⟨done, later, rfl, hrest⟩ := ih hmind
          rw [ht] at hrest
          exact ⟨n :: done, later, rfl, .cons hm hturn hrest⟩
      · refine ⟨[], n :: ns, rfl, ?_⟩
        dsimp only at hd ht ⊢
        rw [hd, ht]
        exact .nil

/-- A member frees what it has to, or it is none of contexts and minds its own entry. -/
theorem minded_of_release (hm : st.engine.manager? n = some m) (h : m.Minds)
    {held : Option String} (hd : heldLevel st.definition = .ok held) :
    ∃ state, m.Minded Manager.Frees st.definition state
        ((Tree.leaf n).perform .release st).2.definition ∧
      ((Tree.leaf n).perform .release st).2.engine.manager? =
        Function.update st.engine.manager? n (some { m with state }) := by
  rw [Tree.perform, ← edit_of_members?_none hm h.members?_eq_none]
  cases h with
  | @contexts levels driver state =>
    have hworks : m.driver ∈ Driver.workers := by simp [driver, Driver.workers]
    have hkeeps : m.driver.technology.Keeps m.state := by
      rw [driver, state]
      exact .selinux levels
    have hperform := Driver.perform_release
      (s := ⟨m.driver.name, m.state, st.engine.host, st.definition⟩) hworks hkeeps hd
    obtain ⟨t, hedit, ht, -⟩ := edit_worker hm hworks hperform
    have hedit : edit n .release st = (.ok (), ⟨t, st.definition.emptied m.driver⟩) := hedit
    rw [hedit]
    exact ⟨_, .contexts driver ⟨rfl, rfl⟩, ht⟩
  | other name fills empties =>
    have hn := Manager.members?_of_ne fills.single
    have hsame := relabelled_edit_release hm hn empties st.definition
    have hop : Operation.release ≠ .verify := by decide
    obtain ⟨state, ht⟩ := manager?_edit hm hn hop st.definition
    refine ⟨state, .other name ?_, ht⟩
    obtain ⟨label, imageLabel, hsame⟩ := hsame
    rw [hsame]
    exact Definition.findEntry_editEntry_of_ne (by simp) (Ne.symm name)

/-- Members all have their turns in a release, whether the turns succeed or fail. -/
theorem turns_of_performAll_release (hs : Staff.Mind st.engine.manager? ns)
    {held : Option String} (hd : heldLevel st.definition = .ok held) :
    Turns (Manager.Minded Manager.Frees) ns st.engine.manager? st.definition
      (Tree.performAll .release (ns.map .leaf) st).2.engine.manager?
      (Tree.performAll .release (ns.map .leaf) st).2.definition := by
  induction ns generalizing st held with
  | nil => exact .nil
  | cons n ns ih =>
    obtain ⟨m, hm, hminds⟩ := hs n (List.mem_cons_self ..)
    obtain ⟨state, hturn, ht⟩ := minded_of_release hm hminds hd
    obtain ⟨held', hd'⟩ := hturn.heldLevel_ok hd
    have hmind := (Staff.Mind.tail hs).update Manager.Frees.keepLevels hm hturn
    rw [← ht] at hmind
    have hrest := ih hmind hd'
    rw [ht] at hrest
    rw [List.map_cons, Tree.performAll]
    exact .cons hm hturn hrest

/-- A stack gives all its members their turns in a release, whether any of them fails or not. -/
theorem turns_of_edit_release (hm : st.engine.manager? id = some m) (hdriver : m.driver = .stack)
    (hmembers : m.state = .stack ns) (hs : Staff.Mind st.engine.manager? ns)
    {held : Option String} (hd : heldLevel st.definition = .ok held) :
    Turns (Manager.Minded Manager.Frees) ns st.engine.manager? st.definition
      (edit id .release st).2.engine.manager? (edit id .release st).2.definition := by
  have hmind : Staff.Mind (st.record id .stack .release).engine.manager? ns := hs
  rw [edit_release_of_leaves hm hdriver hmembers fun n hn => ?_]
  · exact turns_of_performAll_release hmind hd
  · obtain ⟨mn, hmn, hminds⟩ := hs n hn
    exact ⟨mn, hmn, hminds.members?_eq_none⟩

end Engine

/-! ### What the turns make of the contexts -/

theorem Policy.label_settle (p : Policy) (e : LabelEntry) : (p.settle e).label = e.label := by
  unfold settle
  split
  · split <;> rfl
  · rfl

/-- What a turn of a manager of contexts comes to. -/
inductive Manager.LabelsContext (m : Manager) (d : Definition) : DriverState → Definition → Prop
  /-- There is no entry, and none is needed. -/
  | passed (missing : d.findEntry Selinux.model = none) (lax : m.policy.defaultConfined = false) :
      m.LabelsContext d m.state d
  /-- The entry is settled and takes no level. -/
  | settled {d' : Definition} {x : LabelEntry} (found : d'.findEntry Selinux.model = some x)
      (settled : x.type ≠ .undecided) (fixed : x.type ≠ .dynamic)
      (before : ∀ e, d.findEntry Selinux.model = some e → e.type ≠ .dynamic) :
      m.LabelsContext d m.state d'
  /-- The entry takes a free level. -/
  | taken {d' : Definition} {x : LabelEntry} {levels : Levels} {level : String}
      (kept : m.state = .selinux levels) (free : level ∉ levels)
      (found : d'.findEntry Selinux.model = some x) (type : x.type = .dynamic)
      (labelled : x.label ≠ none) (held : heldLevel d' = .ok (some level))
      (confines : d.findEntry Selinux.model = none → m.policy.defaultConfined = true)
      (before : ∀ e, d.findEntry Selinux.model = some e →
        e.label = none ∧ (e.type = .dynamic ∨ e.type = .undecided)) :
      m.LabelsContext d (.selinux (levels.insert level)) d'

theorem Manager.Labels.context {m : Manager} {d d' : Definition} {state : DriverState}
    (hd : m.driver = .selinux) (h : m.Labels d state d') : m.LabelsContext d state d' := by
  obtain ⟨driver, virtDriver, policy, kept⟩ := m
  obtain rfl : driver = .selinux := hd
  cases h with
  | passed missing lax optional others => exact .passed missing lax
  | @completed _ x allowed needed filled =>
    have hfound := findEntry_completed ⟨.selinux, virtDriver, policy, kept⟩ d filled
    have hsettled : x.type ≠ .undecided := by
      rw [filled.type]
      exact policy.type_settle_ne _
    -- A type that is settled stays.
    have hbefore : ∀ e, d.findEntry Selinux.model = some e → e.type ≠ .undecided →
        x.type = e.type := by
      intro e he hne
      rw [filled.type]
      exact congrArg LabelEntry.type (Policy.entryFor_of_settled he hne)
    by_cases ht : x.type = .dynamic
    · obtain ⟨hunlabelled, hlabelled⟩ := filled.made ⟨.inl rfl, ht⟩
      obtain ⟨levels, level, hstate, rfl, hfree, hheld⟩ :=
        Selinux.heldLevel_of_fills filled ht hfound
      refine .taken hstate hfree hfound ht hlabelled hheld (fun hnone => ?_) fun e he => ⟨?_, ?_⟩
      · have hconfined := filled.type.symm.trans ht
        rw [Policy.entryFor, show d.findEntry Driver.selinux.name = none from hnone] at hconfined
        by_contra hlax
        rw [Bool.not_eq_true] at hlax
        have hfixed := (policy.type_settle_implied Selinux.model).mpr hlax
        exact absurd (hfixed.symm.trans hconfined) (by decide)
      · rw [Policy.entryFor, show d.findEntry Driver.selinux.name = some e from he] at hunlabelled
        exact (policy.label_settle e).symm.trans hunlabelled
      · by_cases hne : e.type = .undecided
        · exact .inr hne
        · exact .inl ((hbefore e he hne).symm.trans ht)
    · have hstate : state = kept := filled.state_eq fun hmakes => ht hmakes.2
      subst hstate
      refine .settled hfound hsettled ht fun e he hdynamic => ht ?_
      rw [hbefore e he (by simp [hdynamic]), hdynamic]

/-- What turns of a generation have made of the managers of contexts and of their entry. -/
inductive Staff.Touches (M : Staff) (a : Definition) (ns : List ManagerId) (N : Staff)
    (b : Definition) : Prop
  /-- No level was taken. The entry is the one that was there, or it takes no level. -/
  | untouched (contexts : M.SameContexts N)
      (entry : b.findEntry Selinux.model = a.findEntry Selinux.model ∨
        ∃ x, b.findEntry Selinux.model = some x ∧ x.type ≠ .dynamic)
  /-- One manager took a level. Those before it were passed over, without an entry. -/
  | taken {before after : List ManagerId} {n : ManagerId} {m : Manager} {levels : Levels}
      {level : String} {x : LabelEntry} (turns : ns = before ++ n :: after) (found : M n = some m)
      (driver : m.driver = .selinux) (kept : m.state = .selinux levels) (free : level ∉ levels)
      (passed : ∀ k ∈ before, ∀ mk, M k = some mk → mk.driver = .selinux →
        mk.policy.defaultConfined = false ∧ a.findEntry Selinux.model = none)
      (confines : a.findEntry Selinux.model = none → m.policy.defaultConfined = true)
      (opened : ∀ e, a.findEntry Selinux.model = some e →
        e.type = .dynamic ∨ e.type = .undecided)
      (contexts : Staff.SameContexts (Function.update M n
        (some { m with state := .selinux (levels.insert level) })) N)
      (entry : b.findEntry Selinux.model = some x) (type : x.type = .dynamic)
      (held : heldLevel b = .ok (some level))

/-- A turn that leaves the contexts alone comes before what the other turns make of them. -/
theorem Staff.Touches.cons {M M' N : Staff} {a mid b : Definition} {n : ManagerId}
    {ns : List ManagerId} (h : M'.Touches mid ns N b) (hcontexts : M.SameContexts M')
    (hsame : mid.findEntry Selinux.model = a.findEntry Selinux.model)
    (hpassed : ∀ m, M n = some m → m.driver = .selinux →
      m.policy.defaultConfined = false ∧ a.findEntry Selinux.model = none) :
    M.Touches a (n :: ns) N b := by
  cases h with
  | untouched contexts entry =>
    rw [hsame] at entry
    exact .untouched (hcontexts.trans contexts) entry
  | @taken before after k m levels level x turns found driver kept free passed confines opened
      contexts entry type held =>
    rw [hsame] at passed confines opened
    have hturns : n :: ns = (n :: before) ++ k :: after := congrArg (n :: ·) turns
    refine .taken hturns ((hcontexts k m driver).mp found) driver kept free ?_ confines opened
      ((hcontexts.update k _).trans contexts) entry type held
    intro i hi mi hmi hdi
    rcases List.mem_cons.mp hi with rfl | hi
    · exact hpassed mi hmi hdi
    · exact passed i hi mi ((hcontexts i mi hdi).mpr hmi) hdi

namespace Turns

variable {ns : List ManagerId} {M N : Staff} {a b : Definition} {n : ManagerId} {m : Manager}

/-- Nobody takes a level for an entry that has a label. -/
theorem sameContexts_of_labelled (h : Turns (Manager.Minded Manager.Labels) ns M a N b)
    {x : LabelEntry} (hx : a.findEntry Selinux.model = some x) (ht : x.type = .dynamic)
    (hl : x.label ≠ none) : M.SameContexts N ∧ b.findEntry Selinux.model = some x := by
  induction h with
  | nil => exact ⟨.refl _, hx⟩
  | @cons n ns M N m state a mid b found step rest ih =>
    cases step with
    | contexts driver step =>
      cases step.context driver with
      | passed missing lax => simp [missing] at hx
      | settled found settled fixed before => exact absurd ht (before x hx)
      | taken kept free found type labelled held confines before =>
        exact absurd (before x hx).1 hl
    | other name same =>
      obtain ⟨hcontexts, hb⟩ := ih (same.trans hx)
      have hother := Staff.SameContexts.of_update found (Driver.ne_selinux name) state
      exact ⟨hother.trans hcontexts, hb⟩

/-- The turns of a generation take at most one level. -/
theorem touches (h : Turns (Manager.Minded Manager.Labels) ns M a N b) : M.Touches a ns N b := by
  induction h with
  | nil => exact .untouched (.refl _) (.inl rfl)
  | @cons n ns M N m state a mid b found step rest ih =>
    have hself : M.SameContexts (Function.update M n (some m)) := by
      rw [← found, Function.update_eq_self]
      exact .refl M
    cases step with
    | other name same =>
      have hne := Driver.ne_selinux name
      refine ih.cons (.of_update found hne state) same fun m' hm' hd' => ?_
      obtain rfl := Option.some.inj (found.symm.trans hm')
      exact absurd hd' hne
    | contexts driver step =>
      cases step.context driver with
      | passed missing lax =>
        refine ih.cons hself rfl fun m' hm' _ => ?_
        obtain rfl := Option.some.inj (found.symm.trans hm')
        exact ⟨lax, missing⟩
      | @settled _ x hx settled fixed before =>
        -- For an entry that is settled so, no manager takes a level any more.
        cases ih with
        | untouched contexts entry =>
          refine .untouched (hself.trans contexts) (.inr ?_)
          rcases entry with hentry | hentry
          · exact ⟨x, hentry.trans hx, fixed⟩
          · exact hentry
        | taken turns hk hdriver kept free passed confines opened contexts entry type held =>
          rcases opened x hx with hdynamic | hundecided
          · exact absurd hdynamic fixed
          · exact absurd hundecided settled
      | taken kept free hx type labelled held confines before =>
        obtain ⟨hcontexts, hb⟩ := rest.sameContexts_of_labelled hx type labelled
        have hturns : n :: ns = [] ++ n :: ns := rfl
        refine .taken hturns found driver kept free (fun i hi => ?_) confines
          (fun e he => (before e he).2) hcontexts hb type
          ((Selinux.heldLevel_congr (hb.trans hx.symm)).trans held)
        exact absurd hi List.not_mem_nil

variable {turn : Manager → Definition → DriverState → Definition → Prop}

theorem mind (hturn : KeepLevels turn) (h : Turns (Manager.Minded turn) ns M a N b)
    {ids : List ManagerId} (hs : M.Mind ids) : N.Mind ids := by
  induction h with
  | nil => exact hs
  | cons found step rest ih => exact ih (hs.update hturn found step)

/-- Without a turn of a manager of contexts nothing happens to the contexts. -/
theorem sameContexts_of_foreign (h : Turns (Manager.Minded turn) ns M a N b) (hne : M.Foreign ns) :
    M.SameContexts N ∧ b.findEntry Selinux.model = a.findEntry Selinux.model := by
  induction h with
  | nil => exact ⟨.refl _, rfl⟩
  | @cons n ns M N m state a mid b found step rest ih =>
    have hn := hne n (List.mem_cons_self ..) m found
    have hother := Staff.SameContexts.of_update found hn state
    have hrest : M.Foreign ns := fun k hk => hne k (List.mem_cons_of_mem n hk)
    obtain ⟨hcontexts, hb⟩ := ih (hrest.congr hother)
    cases step with
    | contexts driver step => exact absurd driver hn
    | other name same => exact ⟨hother.trans hcontexts, hb.trans same⟩

/-- A release leaves all managers of contexts as they are if no level is held. -/
theorem sameContexts_of_unheld (hs : M.Mind ns)
    (h : Turns (Manager.Minded Manager.Frees) ns M a N b) (hd : heldLevel a = .ok none) :
    M.SameContexts N := by
  induction h with
  | nil => exact .refl _
  | @cons n ns M N m state a mid b found step rest ih =>
    have hmind := hs.tail.update Manager.Frees.keepLevels found step
    cases step with
    | other name same =>
      have hother := Staff.SameContexts.of_update found (Driver.ne_selinux name) state
      have hmid : heldLevel mid = .ok none := (Selinux.heldLevel_congr same).trans hd
      exact hother.trans (ih hmind hmid)
    | contexts driver step =>
      have hmid : heldLevel mid = .ok none := by
        rw [step.definition, driver]
        exact Selinux.heldLevel_emptied a
      have hstate : state = m.state := by
        obtain ⟨levels, hlevels⟩ := hs.levels (List.mem_cons_self ..) found driver
        rw [step.state, hlevels]
        simp only [DriverState.freed, hd]
      have hrest := ih hmind hmid
      subst hstate
      rwa [show (some { m with state := m.state }) = M n from found.symm,
        Function.update_eq_self] at hrest

/-- The first manager of contexts frees the level that is held, and no other does. -/
theorem sameContexts_of_held {before after : List ManagerId} (hs : M.Mind (before ++ n :: after))
    (h : Turns (Manager.Minded Manager.Frees) (before ++ n :: after) M a N b) (hm : M n = some m)
    (hdriver : m.driver = .selinux) {levels : Levels} (hkept : m.state = .selinux levels)
    (hbefore : M.Foreign before) {level : String} (hd : heldLevel a = .ok (some level)) :
    Staff.SameContexts (Function.update M n
      (some { m with state := .selinux (levels.erase level) })) N := by
  obtain ⟨N₁, c, hfirst, hrest⟩ := h.append
  obtain ⟨hcontexts, hc⟩ := hfirst.sameContexts_of_foreign hbefore
  have hheld : heldLevel c = .ok (some level) := (Selinux.heldLevel_congr hc).trans hd
  have hmind := hfirst.mind Manager.Frees.keepLevels hs
  cases hrest with
  | @cons _ _ _ _ m' state _ mid _ found step rest =>
    obtain rfl := Option.some.inj (found.symm.trans ((hcontexts n m hdriver).mpr hm))
    have hmind' : Staff.Mind N₁ after := fun k hk =>
      hmind k (List.mem_append_right before (List.mem_cons_of_mem n hk))
    have hafter := hmind'.update Manager.Frees.keepLevels found step
    cases step with
    | other name same => exact absurd hdriver (Driver.ne_selinux name)
    | contexts driver step =>
      have hmid : heldLevel mid = .ok none := by
        rw [step.definition, driver]
        exact Selinux.heldLevel_emptied c
      have hstate : state = .selinux (levels.erase level) := by
        rw [step.state, hkept]
        simp only [DriverState.freed, hheld]
      subst hstate
      exact (hcontexts.update n _).trans (rest.sameContexts_of_unheld hafter hmid)

/-- The manager that took the level gets it back if it is the first one of contexts. -/
theorem returned {before after : List ManagerId} {N' : Staff} {c : Definition}
    (hs : N.Mind (before ++ n :: after)) (hm : M n = some m) (hdriver : m.driver = .selinux)
    {levels : Levels} (hkept : m.state = .selinux levels) {level : String} (hfree : level ∉ levels)
    (hcontexts : Staff.SameContexts (Function.update M n
      (some { m with state := .selinux (levels.insert level) })) N)
    (hbefore : M.Foreign before) (hd : heldLevel b = .ok (some level))
    (h : Turns (Manager.Minded Manager.Frees) (before ++ n :: after) N b N' c) :
    M.SameContexts N' := by
  have htaken := hcontexts.updated hdriver
  have hother : N.Foreign before := (hbefore.update hm hdriver _).congr hcontexts
  have hreturned := h.sameContexts_of_held hs htaken hdriver rfl hother hd
  have herased : { m with state := .selinux ((levels.insert level).erase level) } = m := by
    rw [Selinux.Levels.erase_insert hfree, ← hkept]
  have hagain := hcontexts.update n (some m)
  rw [Function.update_idem, ← hm, Function.update_eq_self] at hagain
  rw [herased, ← hm] at hreturned
  exact hagain.trans hreturned

/-- The first manager of contexts has its turn, and no other one of contexts loses a level. -/
theorem spared {before after : List ManagerId} {k : ManagerId} {mk : Manager}
    (hs : M.Mind (before ++ n :: after))
    (h : Turns (Manager.Minded Manager.Frees) (before ++ n :: after) M a N b) (hm : M n = some m)
    (hdriver : m.driver = .selinux) (hbefore : M.Foreign before) {level : String}
    (hd : heldLevel a = .ok (some level)) (hk : M k = some mk) (hdk : mk.driver = .selinux)
    (hne : k ≠ n) : N k = some mk := by
  obtain ⟨levels, hkept⟩ :=
    hs.levels (List.mem_append_right before (List.mem_cons_self ..)) hm hdriver
  have hheld := h.sameContexts_of_held hs hm hdriver hkept hbefore hd
  refine (hheld k mk hdk).mpr ?_
  rw [Function.update_of_ne hne, hk]

/-- The manager that took the level is left with it if another one of contexts comes first. -/
theorem stranded {before after : List ManagerId} {N' : Staff} {c : Definition} {k : ManagerId}
    {mk : Manager} (hs : N.Mind (before ++ k :: after)) (hm : M n = some m)
    (hdriver : m.driver = .selinux) {state : DriverState}
    (hcontexts : Staff.SameContexts (Function.update M n (some { m with state })) N)
    (hk : M k = some mk) (hdk : mk.driver = .selinux) (hne : n ≠ k) (hbefore : M.Foreign before)
    {level : String} (hd : heldLevel b = .ok (some level))
    (h : Turns (Manager.Minded Manager.Frees) (before ++ k :: after) N b N' c) :
    N' n = some { m with state } := by
  have hfirst : N k = some mk := by
    rw [hcontexts k mk hdk, Function.update_of_ne hne.symm, hk]
  have hother : N.Foreign before := (hbefore.update hm hdriver _).congr hcontexts
  exact h.spared hs hfirst hdk hother hd (hcontexts.updated hdriver) hdriver hne

end Turns

/-! ### What a failure and a release leave -/

namespace Engine

variable {s t : Engine} {id n : ManagerId} {root : Manager} {ns : List ManagerId}
  {d : Definition} {st : Stage} {err : Error} {levels : Levels}

theorem KeepsLevels.of_sameContexts (hk : s.KeepsLevels n levels)
    (h : Staff.SameContexts s.manager? t.manager?) : t.KeepsLevels n levels := by
  obtain ⟨m, hm, hdriver, hstate⟩ := hk
  exact ⟨m, (h n m hdriver).mpr hm, hdriver, hstate⟩

/-- The first member of contexts is the one whose levels are reserved for stored domains. -/
theorem levelKeeper?_of_mind {before after : List ManagerId} {m : Manager}
    (hnested : s.nested id = before ++ n :: after)
    (hs : Staff.Mind s.manager? (before ++ n :: after)) (hm : s.manager? n = some m)
    (hdriver : m.driver = .selinux) (hbefore : Staff.Foreign s.manager? before) :
    s.levelKeeper? id = some n := by
  obtain ⟨levels, hlevels⟩ :=
    hs.levels (List.mem_append_right before (List.mem_cons_self ..)) hm hdriver
  refine levelKeeper?_eq hnested (fun k hk mk hmk => ?_) ⟨m, hm, hdriver, hlevels⟩
  have hminds : mk.Minds := Staff.of_mem hs (List.mem_append_left _ hk) hmk
  cases hminds with
  | contexts driver state => exact absurd driver (hbefore k hk mk hmk)
  | other name fills empties => exact name

/-- A generation that fails is made of turns of the first members, and so is the release that comes
after it of turns of all of them. -/
theorem turns_of_failure (hroot : s.manager? id = some root) (hdriver : root.driver = .stack)
    (hmembers : root.state = .stack ns) (hs : Staff.Mind s.manager? ns)
    (h : generateLabels id ⟨s, d⟩ = (.error err, st)) :
    ∃ done later, ns = done ++ later ∧ Turns (Manager.Minded Manager.Labels) done
        s.manager? d st.engine.manager? st.definition ∧
      Staff.Mind st.engine.manager? ns ∧
      ∀ held, heldLevel st.definition = .ok held → Turns (Manager.Minded Manager.Frees) ns
        st.engine.manager? st.definition
        (edit id .release st).2.engine.manager? (edit id .release st).2.definition := by
  have hnested := nested_of_stack hroot hmembers
  have hid : id ∉ ns := by
    intro hmem
    obtain ⟨m, hm, hminds⟩ := hs id hmem
    obtain rfl := Option.some.inj (hroot.symm.trans hm)
    have hnone := hminds.members?_eq_none
    rw [Manager.members?_of_stack hdriver hmembers] at hnone
    cases hnone
  obtain ⟨done, later, hns, hturns⟩ : ∃ done later, ns = done ++ later ∧
      Turns (Manager.Minded Manager.Labels) done s.manager? d st.engine.manager?
        st.definition := by
    rcases generateLabels_cases s id d with ⟨_, _, _, _, _, hg⟩ | ⟨-, hg⟩
    · -- An unknown model is found before any member has its turn.
      obtain ⟨-, rfl⟩ := Prod.mk.inj (h.symm.trans hg)
      exact ⟨[], ns, rfl, .nil⟩
    · have hprefix := @exists_turns_of_generateEach ns ⟨s, d⟩ hs
      rw [← hnested, ← hg, h, hnested] at hprefix
      exact hprefix
  have hroot' : st.engine.manager? id = some root :=
    (hturns.of_not_mem fun hmem => hid (hns ▸ List.mem_append_left later hmem)).trans hroot
  have hmind := hturns.mind Manager.Labels.keepLevels hs
  exact ⟨done, later, hns, hturns, hmind,
    fun held hd => turns_of_edit_release hroot' hdriver hmembers hmind hd⟩

/-- To release what a failed generation has left gives back all levels that it has taken. Only where
a context was added that the first manager of contexts would not have asked for does it get to the
wrong manager, and the level stays with the one that took it. -/
theorem abandoned_levels_given_back_iff (hroot : s.manager? id = some root)
    (hdriver : root.driver = .stack) (hmembers : root.state = .stack ns)
    (hs : ∀ n ∈ ns, ∃ m, s.manager? n = some m ∧ m.Minds)
    (hd : ∀ e, d.findEntry Selinux.model = some e → e.type = .dynamic → e.label = none)
    (h : generateLabels id ⟨s, d⟩ = (.error err, st)) :
    (∀ n levels, s.KeepsLevels n levels →
        (edit id .release st).2.engine.KeepsLevels n levels) ↔
      (d.findEntry Selinux.model = none →
        ∀ x, st.definition.findEntry Selinux.model = some x → x.type = .dynamic →
          ∀ keeper m, s.levelKeeper? id = some keeper → s.manager? keeper = some m →
            m.policy.defaultConfined = true) := by
  have hnested := nested_of_stack hroot hmembers
  obtain ⟨done, later, hns, hturns, hmind, hrelease⟩ :=
    turns_of_failure hroot hdriver hmembers hs h
  cases hturns.touches with
  | untouched contexts entry =>
    have hheld : heldLevel st.definition = .ok none := by
      rcases entry with hentry | ⟨x, hx, ht⟩
      · exact (Selinux.heldLevel_congr hentry).trans (Selinux.heldLevel_of_unmade hd)
      · exact Selinux.heldLevel_of_ne hx ht
    have hsame := contexts.trans ((hrelease _ hheld).sameContexts_of_unheld hmind hheld)
    refine iff_of_true (fun n levels hk => hk.of_sameContexts hsame) fun hnone x hx ht => ?_
    rcases entry with hentry | ⟨y, hy, hty⟩
    · rw [hentry, hnone] at hx
      cases hx
    · obtain rfl := Option.some.inj (hx.symm.trans hy)
      exact absurd ht hty
  | @taken before after n m levels level x turns found driver kept free passed confines opened
      contexts entry type held =>
    have hplaces : ns = before ++ n :: (after ++ later) := by
      rw [hns, turns, List.append_assoc, List.cons_append]
    have hturns' := hrelease _ held
    rcases Staff.foreign_or_exists_first s.manager? before with
      hbefore | ⟨front, k, back, mk, rfl, hk, hdk, hfront⟩
    · -- The manager that took the level is the first one.
      rw [hplaces] at hmind hturns' hs
      have hsame := hturns'.returned hmind found driver kept free contexts hbefore held
      have hkeeper := levelKeeper?_of_mind (hnested.trans hplaces) hs found driver hbefore
      refine iff_of_true (fun n levels hk => hk.of_sameContexts hsame) fun hnone y hy ht => ?_
      intro keeper m' hkeeper' hm'
      obtain rfl := Option.some.inj (hkeeper.symm.trans hkeeper')
      obtain rfl := Option.some.inj (found.symm.trans hm')
      exact confines hnone
    · -- The first manager was passed over, and the release is its turn.
      obtain ⟨hlax, hnone⟩ := passed k (by simp) mk hk hdk
      have hne : n ≠ k := by
        rintro rfl
        obtain rfl := Option.some.inj (found.symm.trans hk)
        rw [confines hnone] at hlax
        cases hlax
      have hplaces : ns = front ++ k :: (back ++ n :: (after ++ later)) := by
        rw [hplaces, List.append_assoc, List.cons_append]
      rw [hplaces] at hmind hturns' hs
      have hkeeper := levelKeeper?_of_mind (hnested.trans hplaces) hs hk hdk hfront
      have hleft := hturns'.stranded hmind found driver contexts hk hdk hne hfront held
      refine iff_of_false (fun hback => ?_) fun hconfined => ?_
      · have hsame := (hback n levels ⟨m, found, driver, kept⟩).unique ⟨_, hleft, driver, rfl⟩
        exact free (hsame ▸ Std.ExtHashSet.mem_insert_self)
      · have hconfined := hconfined hnone x entry type k mk hkeeper hk
        rw [hlax] at hconfined
        cases hconfined

/-! ### A level that comes back, and one that does not -/

/-- A step that the policy refuses fails before the driver is asked. -/
theorem generateOne_of_refused {m : Manager} (hm : st.engine.manager? n = some m)
    (hr : ¬m.policy.Allows (m.policy.entryFor m.driver.name st.definition)) :
    generateOne n st = (.error (.configUnsupported .unconfinedRefused), st) := by
  rcases generateOne_cases hm with ⟨hg, -⟩ | ⟨-, -, -, hopt, -⟩ | ⟨ha, -⟩
  · exact hg
  · exact absurd (fun hboth => by simp [hopt] at hboth) hr
  · exact absurd ha hr

/-- A manager of contexts that confines adds an entry with the first pair of all, if it is free. -/
theorem generateOne_of_free {virtDriver : String} {policy : Policy}
    (hm : st.engine.manager? n = some ⟨.selinux, virtDriver, policy, .selinux levels⟩)
    (hconfined : policy.defaultConfined = true) (hfree : Selinux.pairLevel 0 1 ∉ levels)
    (hmissing : st.definition.findEntry Selinux.model = none) :
    ∃ t d', generateOne n st = (.ok (), ⟨t, d'⟩) ∧
      t.manager? = Function.update st.engine.manager? n
        (some ⟨.selinux, virtDriver, policy, .selinux (levels.insert (Selinux.pairLevel 0 1))⟩) ∧
      heldLevel d' = .ok (some (Selinux.pairLevel 0 1)) ∧
      ∀ model, model ≠ Selinux.model → d'.findEntry model = st.definition.findEntry model := by
  have hentry : policy.entryFor Selinux.model st.definition =
      { LabelEntry.implied Selinux.model with type := .dynamic } := by
    simp [Policy.entryFor, hmissing, Policy.settle, hconfined, LabelEntry.implied]
  have hnext := Selinux.Levels.reserveNext_of_free hfree
  obtain ⟨x, hfills⟩ : ∃ x, Technology.selinux.Fills st.definition.uuid (.selinux levels)
      (policy.entryFor Selinux.model st.definition)
      (.selinux (levels.insert (Selinux.pairLevel 0 1))) x := by
    rw [hentry]
    exact ⟨_, .selinuxDynamic rfl rfl rfl hnext⟩
  have ht : x.type = .dynamic := by rw [hfills.type, hentry]
  have hallowed : policy.Allows (policy.entryFor Selinux.model st.definition) := by
    simp [Policy.Allows, hentry]
  let m : Manager := ⟨.selinux, virtDriver, policy, .selinux levels⟩
  have hlabels : m.Labels st.definition _ _ := .completed hallowed (fun _ => .inl hconfined) hfills
  obtain ⟨t, hg, hstaff⟩ := generateOne_of_labels hm (by simp [Driver.workers]) hlabels
  refine ⟨t, _, hg, hstaff, ?_, Manager.Labels.ownModel m _ _ _ hlabels⟩
  obtain ⟨held, level, hstate, -, hnext', hheld⟩ := Selinux.reserveNext_of_fills hfills ht
  obtain rfl := DriverState.selinux.inj hstate
  obtain ⟨rfl, -⟩ := Prod.mk.inj (Except.ok.inj (hnext'.symm.trans hnext))
  exact hheld _ (Manager.Labels.findEntry_completed m st.definition hfills)

/-- A driver that labels nothing and cannot release anything. -/
def stubborn : Driver where
  name := "stubborn"
  technology := .bare
  initial := .none
  available _ := true
  hooks := { perform := fun _ op d => if op = .generate then some (.ok (), d) else none }

theorem minds_stubborn (policy : Policy) : Manager.Minds ⟨stubborn, "qemu", policy, .none⟩ := by
  have hfills : stubborn.FillsOwnEntry := by
    refine ⟨by decide, fun calls d d' r h => ?_, fun s _ => .refl _ s.definition⟩
    simp only [stubborn, if_true, Option.some.injEq, Prod.mk.injEq] at h
    rw [← h.2]
    exact .refl _ d
  have hempties : stubborn.EmptiesOwnEntry := ⟨by simp [stubborn], fun s _ => .refl _ s.definition⟩
  exact .other (show stubborn.name ≠ Selinux.model by decide) hfills hempties

/-- Two stacks whose ownership refuses guests that are not confined. In the first one a manager of
contexts that does not confine comes before one that does, the second one has only the latter. -/
def refusingHost : Engine where
  managers :=
    [some ⟨.none, "qemu", {}, .none⟩,
     some ⟨.selinux, "qemu", {}, .selinux ∅⟩,
     some ⟨.selinux, "qemu", { defaultConfined := true }, .selinux ∅⟩,
     some ⟨.dac, "qemu", { requireConfined := true }, .dac {}⟩,
     some ⟨stubborn, "qemu", {}, .none⟩,
     some ⟨.stack, "qemu", {}, .stack [0, 1, 2, 3]⟩,
     some ⟨.stack, "qemu", {}, .stack [4, 2, 3]⟩]
  held := [5, 6]

theorem mind_refusingHost : Staff.Mind refusingHost.manager? [0, 1, 2, 3, 4] := by
  have hworks : ∀ dr ∈ Driver.workers, dr.name ≠ Selinux.model → ∀ policy state,
      Manager.Minds ⟨dr, "qemu", policy, state⟩ := fun dr hdr hname _ _ =>
    .other hname (Driver.fillsOwnEntry_of_mem_workers hdr)
      (Driver.emptiesOwnEntry_of_mem_workers hdr)
  intro n hn
  simp only [List.mem_cons, List.not_mem_nil, or_false] at hn
  rcases hn with rfl | rfl | rfl | rfl | rfl
  · exact ⟨_, rfl, hworks _ (by simp [Driver.workers]) (by decide) _ _⟩
  · exact ⟨_, rfl, .contexts rfl rfl⟩
  · exact ⟨_, rfl, .contexts rfl rfl⟩
  · exact ⟨_, rfl, hworks _ (by simp [Driver.workers]) (by decide) _ _⟩
  · exact ⟨_, rfl, minds_stubborn _⟩

/-- Once a level is taken the ownership refuses the guest, which stays with its context. -/
theorem generateEach_refusingHost {front : List ManagerId} {mid : Stage}
    (hfront : generateEach front ⟨refusingHost, .guest []⟩ = (.ok (), mid))
    (hcontexts : mid.engine.manager? 2 = refusingHost.manager? 2)
    (hownership : mid.engine.manager? 3 = refusingHost.manager? 3)
    (hmissing : mid.definition.findEntry Selinux.model = none)
    (hmissing' : mid.definition.findEntry "dac" = none) :
    ∃ t d, generateEach (front ++ [2, 3]) ⟨refusingHost, .guest []⟩ =
        (.error (.configUnsupported .unconfinedRefused), ⟨t, d⟩) ∧
      t.manager? = Function.update mid.engine.manager? 2 (some ⟨.selinux, "qemu",
        { defaultConfined := true }, .selinux ((∅ : Levels).insert "s0:c0,c1")⟩) ∧
      heldLevel d = .ok (some "s0:c0,c1") := by
  obtain ⟨t, d, hg, ht, hheld, hother⟩ :=
    generateOne_of_free (hcontexts.trans rfl) rfl Std.ExtHashSet.not_mem_empty hmissing
  have hdac : t.manager? 3 = some ⟨.dac, "qemu", { requireConfined := true }, .dac {}⟩ := by
    rw [ht, Function.update_of_ne (by decide), hownership]
    rfl
  have hd : d.findEntry "dac" = none := (hother "dac" (by decide)).trans hmissing'
  have hrefused := @generateOne_of_refused 3 ⟨t, d⟩ _ hdac fun hallowed => by
    rw [Policy.entryFor, show d.findEntry Driver.dac.name = none from hd] at hallowed
    exact hallowed ⟨rfl, rfl⟩
  refine ⟨t, d, ?_, ht, hheld⟩
  rw [generateEach_append, hfront]
  simp only [generateEach, hg, hrefused]

/-- The level that a guest has taken before it was refused comes back, though another member fails
to release. -/
theorem abandoned_levels_refusingHost : ∃ err st,
    generateLabels 6 ⟨refusingHost, .guest []⟩ = (.error err, st) ∧
      (∃ levels, st.engine.KeepsLevels 2 levels ∧ "s0:c0,c1" ∈ levels) ∧
      (edit 6 .release st).2.engine.KeepsLevels 2 ∅ := by
  obtain ⟨t, d, h, ht, -⟩ := @generateEach_refusingHost [4] _ rfl rfl rfl rfl rfl
  have h : generateLabels 6 ⟨refusingHost, .guest []⟩ = _ := h
  have htaken : t.KeepsLevels 2 ((∅ : Levels).insert "s0:c0,c1") :=
    ⟨_, by rw [ht, Function.update_self], rfl, rfl⟩
  refine ⟨_, _, h, ⟨_, htaken, Std.ExtHashSet.mem_insert_self⟩, ?_⟩
  have hminds : ∀ n ∈ [4, 2, 3], ∃ m, refusingHost.manager? n = some m ∧ m.Minds :=
    fun n hn => mind_refusingHost n (by revert n; decide)
  have hback := abandoned_levels_given_back_iff rfl rfl rfl hminds
    (fun e he => by cases he) h
  refine hback.mpr (fun _ x _ _ keeper m hkeeper hm => ?_) 2 ∅ ⟨_, rfl, rfl, rfl⟩
  obtain rfl : 2 = keeper := Option.some.inj hkeeper
  obtain rfl := Option.some.inj hm
  rfl

/-- The level stays with the second manager of contexts, as the release takes the label away at the
first one. -/
theorem refused_guest_leaves_level : ∃ err st,
    generateLabels 5 ⟨refusingHost, .guest []⟩ = (.error err, st) ∧
      refusingHost.KeepsLevels 2 ∅ ∧
      ∃ levels, (edit 5 .release st).2.engine.KeepsLevels 2 levels ∧ "s0:c0,c1" ∈ levels := by
  obtain ⟨t, d, h, ht, hheld⟩ := @generateEach_refusingHost [0, 1] _ rfl rfl rfl rfl rfl
  have h : generateLabels 5 ⟨refusingHost, .guest []⟩ = _ := h
  have hminds : Staff.Mind refusingHost.manager? [0, 1, 2, 3] :=
    fun n hn => mind_refusingHost n (by revert n; decide)
  obtain ⟨-, -, -, -, hmind, hrelease⟩ := turns_of_failure rfl rfl rfl hminds h
  have hmind : Staff.Mind t.manager? ([0] ++ 1 :: [2, 3]) := hmind
  have hfirst : t.manager? 1 = some ⟨.selinux, "qemu", {}, .selinux ∅⟩ := by
    rw [ht]
    rfl
  have hplain : Staff.Foreign t.manager? [0] := by
    intro n hn m hm
    obtain rfl := List.mem_singleton.mp hn
    have hm' : t.manager? 0 = some ⟨.none, "qemu", {}, .none⟩ := by
      rw [ht]
      rfl
    obtain rfl := Option.some.inj (hm'.symm.trans hm)
    exact Driver.ne_selinux (by decide)
  have hkept := (hrelease _ hheld).spared hmind hfirst rfl hplain hheld
    (by rw [ht, Function.update_self]) rfl (show 2 ≠ 1 by decide)
  exact ⟨_, _, h, ⟨_, rfl, rfl, rfl⟩, _, ⟨_, hkept, rfl, rfl⟩, Std.ExtHashSet.mem_insert_self⟩

end Engine

end Confinement
