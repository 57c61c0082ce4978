import Mathlib.Data.List.Forall2
import Confinement.Proofs.Driver.OwnEntry
import Confinement.Proofs.Manager.Requests

/-!
# One manager's step of a generation

The policy of a manager decides what becomes of the entry of its model before the driver is asked.
A step that succeeds has completed the entry, added one, or passed the manager over. A step that
fails, by the policy or by the driver, has put the definition back. Whatever it does, a step asks no
driver but the manager's own, and that one at most once.
-/

namespace Confinement

/-! ### The policy of a step -/

namespace Policy

/-- The entry that a step starts from, with its type settled. -/
def entryFor (p : Policy) (model : String) (d : Definition) : LabelEntry :=
  p.settle ((d.findEntry model).getD (.implied model))

/-- Whether a domain may have the entry. -/
def Allows (p : Policy) (e : LabelEntry) : Prop :=
  ¬(e.type = .unconfined ∧ p.requireConfined = true)

/-- The definition that a driver is given to complete. -/
def prepared (p : Policy) (model : String) (d : Definition) : Definition :=
  match d.findEntry model with
  | some _ => d.editEntry model p.settle
  | none => d.addEntry (p.settle (.implied model))

@[simp] theorem model_settle (p : Policy) (e : LabelEntry) : (p.settle e).model = e.model := by
  unfold settle
  split
  · split <;> rfl
  · rfl

@[simp] theorem baseLabel_settle (p : Policy) (e : LabelEntry) :
    (p.settle e).baseLabel = e.baseLabel := by
  unfold settle
  split
  · split <;> rfl
  · rfl

@[simp] theorem implicit_settle (p : Policy) (e : LabelEntry) :
    (p.settle e).implicit = e.implicit := by
  unfold settle
  split
  · split <;> rfl
  · rfl

/-- An entry that is made up is unconfined exactly under a policy that does not confine. -/
theorem type_settle_implied (p : Policy) (model : String) :
    (p.settle (.implied model)).type = .unconfined ↔ p.defaultConfined = false := by
  cases h : p.defaultConfined <;> simp [settle, LabelEntry.implied, h]

/-- A policy that requires confinement allows no other entry. -/
theorem Allows.confined {p : Policy} {e : LabelEntry} (h : p.Allows (p.settle e))
    (hp : p.requireConfined = true) :
    (p.settle e).type = .dynamic ∨ (p.settle e).type = .static := by
  have hu := p.type_settle_ne e
  have hn : (p.settle e).type ≠ .unconfined := fun ht => h ⟨ht, hp⟩
  cases ht : (p.settle e).type with
  | undecided => exact absurd ht hu
  | dynamic => exact .inl rfl
  | static => exact .inr rfl
  | unconfined => exact absurd ht hn

/-- All that the policy can plan, with what it has found. -/
theorem plan_cases (p : Policy) (model : String) (d : Definition) :
    (p.plan model d = .refuse ∧ ¬p.Allows (p.entryFor model d)) ∨
    (∃ i e, p.plan model d = .complete i (p.settle e) ∧ d.locateEntry model = some (i, e) ∧
      p.Allows (p.settle e)) ∨
    (p.plan model d = .skip ∧ d.findEntry model = none ∧ p.defaultConfined = false ∧
      p.requireConfined = false ∧ d.entries ≠ []) ∨
    (p.plan model d = .supply (p.settle (.implied model)) ∧ d.findEntry model = none ∧
      p.Allows (p.settle (.implied model)) ∧ (p.defaultConfined = true ∨ d.entries = [])) := by
  cases hl : d.locateEntry model with
  | some q =>
    obtain ⟨i, e⟩ := q
    obtain ⟨-, -, hf⟩ := Definition.locateEntry_eq_some hl
    by_cases ha : p.Allows (p.settle e)
    · refine .inr (.inl ⟨i, e, ?_, rfl, ha⟩)
      unfold Allows at ha
      simp [plan, hl, ha]
    · refine .inl ⟨?_, by simpa [entryFor, hf] using ha⟩
      unfold Allows at ha
      simp [plan, hl, not_not.mp ha]
  | none =>
    have hf := Definition.locateEntry_eq_none_iff.mp hl
    have ht := p.type_settle_implied model
    by_cases ha : p.Allows (p.settle (.implied model))
    · by_cases hs : p.defaultConfined = false ∧ d.entries ≠ []
      · have hr : p.requireConfined = false := by
          simpa [Allows, ht, hs.1] using ha
        exact .inr (.inr (.inl ⟨by simp [plan, hl, ht, hs, hr], hf, hs.1, hr, hs.2⟩))
      · have hn : p.defaultConfined = true ∨ d.entries = [] := by
          by_cases hd : p.defaultConfined = true
          · exact .inl hd
          · exact .inr (by simpa [hd] using hs)
        refine .inr (.inr (.inr ⟨?_, hf, ha, hn⟩))
        unfold Allows at ha
        have hs' : ¬((p.settle (.implied model)).type = .unconfined ∧ d.entries ≠ []) := by
          rwa [ht]
        simp only [plan, hl, ha, hs', if_false]
    · refine .inl ⟨?_, by simpa [entryFor, hf] using ha⟩
      unfold Allows at ha
      simp [plan, hl, not_not.mp ha]

/-- The prepared definition has an entry of the model, and those of other models as they were. -/
theorem findEntry_prepared (p : Policy) (model : String) (d : Definition) :
    (p.prepared model d).findEntry model = some (p.entryFor model d) := by
  unfold prepared entryFor
  cases h : d.findEntry model with
  | some e =>
    dsimp only
    rw [Definition.findEntry_editEntry p.model_settle, h]
    rfl
  | none =>
    dsimp only
    rw [Definition.findEntry_addEntry, h]
    simp [LabelEntry.implied]

theorem findEntry_prepared_of_ne (p : Policy) {model other : String} (hne : other ≠ model)
    (d : Definition) : (p.prepared model d).findEntry other = d.findEntry other := by
  unfold prepared
  cases d.findEntry model with
  | some e => exact Definition.findEntry_editEntry_of_ne p.model_settle hne
  | none =>
    dsimp only
    rw [Definition.findEntry_addEntry]
    simp [LabelEntry.implied, Ne.symm hne]

/-- What a successful step may make of a definition. -/
inductive Settles (p : Policy) (model : String) (d : Definition) : Definition → Prop
  /-- The domain's entry has its type settled and its labels filled in. -/
  | completed (e : LabelEntry) (label imageLabel : Option String)
      (found : d.findEntry model = some e) (allowed : p.Allows (p.settle e)) :
      p.Settles model d (d.editEntry model fun e => (p.settle e).withLabels label imageLabel)
  /-- The domain has entries, and none is added that confines nothing. -/
  | skipped (missing : d.findEntry model = none) (lax : p.defaultConfined = false)
      (optional : p.requireConfined = false) (others : d.entries ≠ []) : p.Settles model d d
  /-- An entry is added, with its labels filled in. -/
  | supplied (label imageLabel : Option String) (missing : d.findEntry model = none)
      (allowed : p.Allows (p.settle (.implied model)))
      (needed : p.defaultConfined = true ∨ d.entries = []) :
      p.Settles model d (d.addEntry ((p.settle (.implied model)).withLabels label imageLabel))

/-- Where the entry is allowed and needed, labels are all that is missing. -/
theorem Settles.of_relabelled {p : Policy} {model : String} {d d' : Definition}
    (ha : p.Allows (p.entryFor model d))
    (hneed : d.findEntry model = none → p.defaultConfined = true ∨ d.entries = [])
    (h : (p.prepared model d).Relabelled model d') : p.Settles model d d' := by
  obtain ⟨label, imageLabel, rfl⟩ := h
  cases hf : d.findEntry model with
  | some e =>
    simp only [entryFor, hf, Option.getD_some] at ha
    simp only [prepared, hf]
    rw [Definition.editEntry_editEntry p.model_settle]
    exact .completed e label imageLabel hf ha
  | none =>
    have hmodel : (p.settle (.implied model)).model = some model := by
      simp [LabelEntry.implied]
    simp only [entryFor, hf, Option.getD_none] at ha
    simp only [prepared, hf]
    rw [Definition.editEntry_addEntry hf hmodel]
    exact .supplied label imageLabel hf ha (hneed hf)

end Policy

/-! ### Asking the driver -/

namespace Engine

/-- From `s` to `t` managers were asked for labels and for nothing else: some of `ids`, in order. -/
def AskedToGenerate (s t : Engine) (ids : List ManagerId) : Prop :=
  ∃ calls : List Call, t.trace = calls ++ s.trace ∧
    (∀ c ∈ calls, c.request = .operation .generate) ∧
    (calls.reverse.map (·.manager)).Sublist (ids.map some)

theorem AskedToGenerate.refl (s : Engine) (ids : List ManagerId) : s.AskedToGenerate s ids :=
  ⟨[], rfl, by simp, List.nil_sublist _⟩

theorem AskedToGenerate.trans {s t u : Engine} {ids ids' : List ManagerId}
    (h : s.AskedToGenerate t ids) (h' : t.AskedToGenerate u ids') :
    s.AskedToGenerate u (ids ++ ids') := by
  obtain ⟨calls, ht, hr, hs⟩ := h
  obtain ⟨calls', hu, hr', hs'⟩ := h'
  refine ⟨calls' ++ calls, by rw [hu, ht, List.append_assoc], ?_, ?_⟩
  · intro c hc
    rcases List.mem_append.mp hc with hc | hc
    · exact hr' c hc
    · exact hr c hc
  · rw [List.reverse_append, List.map_append, List.map_append]
    exact hs.append hs'

variable {s : Engine} {id : ManagerId} {m : Manager}

/-- A manager without members has its own driver asked, once. -/
theorem asked_edit_generate (hm : s.manager? id = some m) (hn : m.members? = none)
    (d : Definition) : s.AskedToGenerate (edit id .generate ⟨s, d⟩).2.engine [id] := by
  have ht : (edit id .generate ⟨s, d⟩).2.engine.trace =
      ⟨m.driver.name, m.driver.builtIn, some id, .operation .generate⟩ :: s.trace := by
    cases hh : m.driver.hooks.perform s.trace .generate d with
    | some out =>
      rw [edit_of_hooks_some hm hn (by decide) hh, Stage.engine_redefine]
      rfl
    | none =>
      rw [edit_of_hooks_none hm hn (by decide) hh, Stage.trace_leave]
      rfl
  exact ⟨[_], ht, by simp, by simp⟩

/-- The driver changes no more than the labels of its own entry, also when it fails. -/
theorem relabelled_edit_generate (hm : s.manager? id = some m) (hf : m.driver.FillsOwnEntry)
    (d : Definition) :
    d.Relabelled m.driver.name (edit id .generate ⟨s, d⟩).2.definition := by
  have hn := Manager.members?_of_ne hf.single
  cases hh : m.driver.hooks.perform s.trace .generate d with
  | some out =>
    rw [edit_of_hooks_some hm hn (by decide) hh]
    exact hf.hooks _ _ _ _ hh
  | none =>
    rw [edit_of_hooks_none hm hn (by decide) hh, Stage.definition_leave rfl]
    exact hf.technology _ rfl

/-! ### What a step comes to -/

variable {st : Stage}

/-- A step that fails, and the stage that it leaves behind. -/
inductive StepFails (id : ManagerId) (p : Policy) (model : String) (st : Stage) :
    Error → Stage → Prop
  /-- The policy refuses the entry, and no driver is asked. -/
  | policy (refused : ¬p.Allows (p.entryFor model st.definition)) :
      StepFails id p model st (.configUnsupported .unconfinedRefused) st
  /-- The driver fails on the prepared definition, and the definition is put back. -/
  | driver {e : Error} {out : Stage}
      (failed : edit id .generate ⟨st.engine, p.prepared model st.definition⟩ = (.error e, out)) :
      StepFails id p model st e { out with definition := st.definition }

theorem StepFails.definition {p : Policy} {model : String} {e : Error} {st' : Stage}
    (h : StepFails id p model st e st') : st'.definition = st.definition := by
  cases h with
  | policy refused => rfl
  | driver failed => rfl

/-- What a step makes of the driver's answer: after a failure the definition is undone. -/
def undoFailure (undo : Definition → Definition) :
    Except Error Unit × Stage → Except Error Unit × Stage
  | (.ok (), out) => (.ok (), out)
  | (.error e, out) => (.error e, { out with definition := undo out.definition })

/-- The policy refuses, it passes the manager over, or the driver is asked on the prepared
definition, which is undone if the driver fails after writing to its own labels. -/
theorem generateOne_cases (hm : st.engine.manager? id = some m) :
    (generateOne id st = (.error (.configUnsupported .unconfinedRefused), st) ∧
      ¬m.policy.Allows (m.policy.entryFor m.driver.name st.definition)) ∨
    (generateOne id st = (.ok (), st) ∧ st.definition.findEntry m.driver.name = none ∧
      m.policy.defaultConfined = false ∧ m.policy.requireConfined = false ∧
      st.definition.entries ≠ []) ∨
    (m.policy.Allows (m.policy.entryFor m.driver.name st.definition) ∧
      (st.definition.findEntry m.driver.name = none →
        m.policy.defaultConfined = true ∨ st.definition.entries = []) ∧
      ∃ undo, generateOne id st = undoFailure undo
          (edit id .generate ⟨st.engine, m.policy.prepared m.driver.name st.definition⟩) ∧
        ∀ d', (m.policy.prepared m.driver.name st.definition).Relabelled m.driver.name d' →
          undo d' = st.definition) := by
  rcases m.policy.plan_cases m.driver.name st.definition with
    ⟨hp, hr⟩ | ⟨i, e, hp, hl, ha⟩ | ⟨hp, hn, hlax, hopt, hne⟩ | ⟨hp, hn, ha, hneed⟩
  · have hg : generateOne id st = (.error (.configUnsupported .unconfinedRefused), st) := by
      simp only [generateOne, manager_eq_ok_iff.mpr hm, hp]
    exact .inl ⟨hg, hr⟩
  · obtain ⟨-, hi, hfound⟩ := Definition.locateEntry_eq_some hl
    have hprepared : m.policy.prepared m.driver.name st.definition =
        st.definition.setEntryAt i (m.policy.settle e) := by
      simp only [Policy.prepared, hfound, Definition.editEntry_eq_setEntryAt hl]
    have hg : generateOne id st = undoFailure (·.putBack i st.definition.entries[i]?)
        (edit id .generate ⟨st.engine, m.policy.prepared m.driver.name st.definition⟩) := by
      simp only [generateOne, manager_eq_ok_iff.mpr hm, hp, hprepared]
      rfl
    refine .inr (.inr ⟨by simpa [Policy.entryFor, hfound] using ha, ?_, _, hg, ?_⟩)
    · intro hn
      rw [hfound] at hn
      cases hn
    · rintro d' ⟨label, imageLabel, rfl⟩
      simp only [Policy.prepared, hfound]
      rw [Definition.editEntry_editEntry m.policy.model_settle, hi]
      exact Definition.setEntryAt_editEntry hl _
  · have hg : generateOne id st = (.ok (), st) := by
      simp only [generateOne, manager_eq_ok_iff.mpr hm, hp]
    exact .inr (.inl ⟨hg, hn, hlax, hopt, hne⟩)
  · have hprepared : m.policy.prepared m.driver.name st.definition =
        st.definition.addEntry (m.policy.settle (.implied m.driver.name)) := by
      simp only [Policy.prepared, hn]
    have hg : generateOne id st = undoFailure (·.dropLastEntry)
        (edit id .generate ⟨st.engine, m.policy.prepared m.driver.name st.definition⟩) := by
      simp only [generateOne, manager_eq_ok_iff.mpr hm, hp, hprepared]
      rfl
    refine .inr (.inr ⟨by simpa [Policy.entryFor, hn] using ha, fun _ => hneed, _, hg, ?_⟩)
    rintro d' ⟨label, imageLabel, rfl⟩
    have hmodel : (m.policy.settle (.implied m.driver.name)).model = some m.driver.name := by
      simp [LabelEntry.implied]
    rw [hprepared, Definition.editEntry_addEntry hn hmodel]
    exact Definition.dropLastEntry_addEntry _ _

/-- The two outcomes of a step under a policy for a model. -/
def StepEnds (id : ManagerId) (p : Policy) (model : String) (st : Stage) : Prop :=
  ((generateOne id st).1 = .ok () ∧
    p.Settles model st.definition (generateOne id st).2.definition) ∨
  ∃ e st', generateOne id st = (.error e, st') ∧ StepFails id p model st e st'

/-- Every step of a manager whose driver fills in its own entry has one of the two outcomes. -/
theorem stepEnds (hm : st.engine.manager? id = some m) (hf : m.driver.FillsOwnEntry) :
    StepEnds id m.policy m.driver.name st := by
  rcases generateOne_cases hm with
    ⟨hg, hr⟩ | ⟨hg, hn, hlax, hopt, hne⟩ | ⟨ha, hneed, undo, hg, hundo⟩
  · exact .inr ⟨_, _, hg, .policy hr⟩
  · refine .inl ⟨by rw [hg], ?_⟩
    rw [hg]
    exact .skipped hn hlax hopt hne
  · have hrel := relabelled_edit_generate hm hf (m.policy.prepared m.driver.name st.definition)
    cases hout : edit id .generate
        ⟨st.engine, m.policy.prepared m.driver.name st.definition⟩ with
    | mk r out =>
      rw [hout] at hg hrel
      cases r with
      | ok u =>
        refine .inl ⟨by rw [hg]; rfl, ?_⟩
        rw [hg]
        exact .of_relabelled ha hneed hrel
      | error e =>
        refine .inr ⟨e, { out with definition := st.definition }, ?_, .driver hout⟩
        rw [hg, undoFailure, hundo _ hrel]

/-- A step does to the engine what asking the manager does, or nothing. -/
theorem generateOne_engine {R : Engine → Prop} (hsame : R st.engine)
    (hedit : ∀ d, R (edit id .generate ⟨st.engine, d⟩).2.engine) :
    R (generateOne id st).2.engine := by
  unfold generateOne
  split
  · exact hsame
  · rename_i m hm
    split
    · exact hsame
    · exact hsame
    · rename_i i entry hp
      have h := hedit (st.definition.setEntryAt i entry)
      dsimp only
      split <;> rename_i heq <;> rw [heq] at h <;> exact h
    · rename_i entry hp
      have h := hedit (st.definition.addEntry entry)
      split <;> rename_i heq <;> rw [heq] at h <;> exact h

theorem sameRoles_generateOne (id : ManagerId) (st : Stage) :
    st.engine.SameRoles (generateOne id st).2.engine :=
  generateOne_engine (R := fun s => st.engine.SameRoles s) (.refl st.engine) fun d =>
    sameRoles_edit id .generate ⟨st.engine, d⟩

theorem asked_generateOne (hm : st.engine.manager? id = some m) (hn : m.members? = none) :
    st.engine.AskedToGenerate (generateOne id st).2.engine [id] :=
  generateOne_engine (R := fun s => st.engine.AskedToGenerate s [id]) (.refl st.engine [id])
    fun d => asked_edit_generate hm hn d

end Engine

end Confinement
