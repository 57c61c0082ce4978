import Mathlib.Logic.Function.Basic
import Confinement.Proofs.Driver.Completion
import Confinement.Proofs.Generation.Outcome

/-!
# Turns of managers

In a generation that succeeds the managers have their turns, one after the other. A turn either
passes a manager over or has its driver fill in the first entry of the driver's model. All that
later turns see of it is what the driver keeps for the manager then, and the definition.
-/

namespace Confinement

/-- Managers by number. -/
abbrev Staff := ManagerId → Option Manager

namespace Staff

/-- The model of the manager with a number. -/
def model? (M : Staff) (n : ManagerId) : Option String := (M n).map (·.driver.name)

/-- The managers with the numbers are of built-in drivers that do their own work. -/
def Work (M : Staff) (ns : List ManagerId) : Prop :=
  ∀ n ∈ ns, ∃ m, M n = some m ∧ m.driver ∈ Driver.workers

/-- Every model that a domain has an entry of is that of a manager with one of the numbers. -/
def Knows (M : Staff) (ns : List ManagerId) (d : Definition) : Prop :=
  ∀ e ∈ d.entries, ∀ model, e.model = some model → ∃ n ∈ ns, M.model? n = some model

variable {M : Staff} {n : ManagerId} {ns : List ManagerId} {m : Manager}

theorem model?_eq (hm : M n = some m) : M.model? n = some m.driver.name := by
  rw [model?, hm, Option.map_some]

theorem eq_of_model? {model : String} (h : M.model? n = some model) :
    ∃ m, M n = some m ∧ m.driver.name = model :=
  Option.map_eq_some_iff.mp h

/-- Another state makes no other model. -/
@[simp] theorem model?_update (hm : M n = some m) (state : DriverState) :
    Staff.model? (Function.update M n (some { m with state })) = M.model? := by
  funext k
  by_cases hk : k = n
  · subst hk
    simp [model?, hm]
  · simp [model?, Function.update_of_ne hk]

/-- The last of several managers of a model. -/
theorem exists_last {model : String} (h : ∃ n ∈ ns, M.model? n = some model) :
    ∃ done n later, ns = done ++ n :: later ∧ M.model? n = some model ∧
      ∀ k ∈ later, M.model? k ≠ some model := by
  induction ns with
  | nil => simp at h
  | cons k ns ih =>
    by_cases hlater : ∃ n ∈ ns, M.model? n = some model
    · obtain ⟨done, n, later, rfl, hn, hnone⟩ := ih hlater
      exact ⟨k :: done, n, later, rfl, hn, hnone⟩
    · have hnone : ∀ n ∈ ns, M.model? n ≠ some model := fun n hn hmodel => hlater ⟨n, hn, hmodel⟩
      obtain ⟨n, hn, hmodel⟩ := h
      rcases List.mem_cons.mp hn with rfl | hn
      · exact ⟨[], n, ns, rfl, hmodel, hnone⟩
      · exact absurd hmodel (hnone n hn)

/-- The models of other managers are not that of the next one. -/
theorem not_provided_cons {model : String} (hm : M n = some m) (hname : model ≠ m.driver.name)
    (h : ∀ k ∈ ns, M.model? k ≠ some model) : ∀ k ∈ n :: ns, M.model? k ≠ some model := by
  intro k hk
  rcases List.mem_cons.mp hk with rfl | hk
  · rw [model?_eq hm]
    exact fun heq => hname (Option.some.inj heq).symm
  · exact h k hk

section Members

variable {P : Manager → Prop}

/-- What is said of all managers with the numbers is said of each one. -/
theorem of_mem (h : ∀ k ∈ ns, ∃ mk, M k = some mk ∧ P mk) (hn : n ∈ ns) (hm : M n = some m) :
    P m := by
  obtain ⟨m', hm', hP⟩ := h n hn
  obtain rfl := Option.some.inj (hm.symm.trans hm')
  exact hP

/-- It stays true of all if it does of the one that has another state. -/
theorem forall_update (h : ∀ k ∈ ns, ∃ mk, M k = some mk ∧ P mk) (hm : M n = some m)
    {state : DriverState} (hP : P m → P { m with state }) : ∀ k ∈ ns, ∃ mk,
      Function.update M n (some { m with state }) k = some mk ∧ P mk := by
  intro k hk
  obtain ⟨mk, hmk, hPk⟩ := h k hk
  by_cases hkn : k = n
  · subst hkn
    obtain rfl := Option.some.inj (hm.symm.trans hmk)
    exact ⟨_, Function.update_self .., hP hPk⟩
  · exact ⟨mk, by rw [Function.update_of_ne hkn, hmk], hPk⟩

end Members

theorem Work.driver (h : M.Work ns) (hn : n ∈ ns) (hm : M n = some m) :
    m.driver ∈ Driver.workers :=
  of_mem h hn hm

theorem Work.tail (h : M.Work (n :: ns)) : M.Work ns := fun k hk => h k (List.mem_cons_of_mem n hk)

theorem Work.update (h : M.Work ns) (hm : M n = some m) (state : DriverState) :
    Staff.Work (Function.update M n (some { m with state })) ns :=
  forall_update h hm id

/-- Which managers know a domain is a matter of its models alone. -/
theorem Knows.congr {c d : Definition} (hd : M.Knows ns d)
    (h : c.entries.map (·.model) = d.entries.map (·.model)) : M.Knows ns c := by
  intro e he model hmodel
  have hmem : some model ∈ d.entries.map (·.model) := by
    rw [← h, ← hmodel]
    exact List.mem_map_of_mem he
  obtain ⟨e', he', hmodel'⟩ := List.mem_map.mp hmem
  exact hd e' he' model hmodel'

end Staff

/-- The members that a manager keeps, if it keeps members. -/
def Manager.kept? (m : Manager) : Option (List ManagerId) :=
  match m.state with
  | .stack members => some members
  | _ => none

theorem Engine.nested_eq (s : Engine) (id : ManagerId) :
    s.nested id = ((s.manager? id).bind Manager.kept?).getD [id] := by
  unfold nested
  cases s.manager? id with
  | none => rfl
  | some m =>
    obtain ⟨driver, virtDriver, policy, state⟩ := m
    cases state <;> rfl

/-- A stack stands for its members. -/
theorem Engine.nested_of_stack {s : Engine} {id : ManagerId} {m : Manager} {ns : List ManagerId}
    (hm : s.manager? id = some m) (hs : m.state = .stack ns) : s.nested id = ns := by
  rw [nested_eq, hm, Option.bind_some, Manager.kept?, hs]
  rfl

/-! ### One turn after the other -/

/-- Managers have their turns in order. A turn changes the definition and what its manager keeps. -/
inductive Turns (turn : Manager → Definition → DriverState → Definition → Prop) :
    List ManagerId → Staff → Definition → Staff → Definition → Prop
  | nil {M : Staff} {d : Definition} : Turns turn [] M d M d
  | cons {n : ManagerId} {ns : List ManagerId} {M M' : Staff} {m : Manager} {state : DriverState}
      {d mid d' : Definition} (found : M n = some m) (step : turn m d state mid)
      (rest : Turns turn ns (Function.update M n (some { m with state })) mid M' d') :
      Turns turn (n :: ns) M d M' d'

namespace Turns

variable {turn : Manager → Definition → DriverState → Definition → Prop}
  {ns done later : List ManagerId} {M M' : Staff} {d d' : Definition} {n : ManagerId}

theorem append (h : Turns turn (done ++ later) M d M' d') :
    ∃ N mid, Turns turn done M d N mid ∧ Turns turn later N mid M' d' := by
  induction done generalizing M d with
  | nil => exact ⟨M, d, .nil, h⟩
  | cons n done ih =>
    cases h with
    | cons found step rest =>
      obtain ⟨N, mid, hdone, hlater⟩ := ih rest
      exact ⟨N, mid, .cons found step hdone, hlater⟩

/-- Whoever has no turn stays as it is. -/
theorem of_not_mem (h : Turns turn ns M d M' d') (hn : n ∉ ns) : M' n = M n := by
  induction h with
  | nil => rfl
  | cons found step rest ih =>
    rw [ih (List.not_mem_of_not_mem_cons hn),
      Function.update_of_ne (List.ne_of_not_mem_cons hn)]

/-- Turns make no other models. -/
theorem model?_eq (h : Turns turn ns M d M' d') : M'.model? = M.model? := by
  induction h with
  | nil => rfl
  | cons found step rest ih => rw [ih, Staff.model?_update found]

/-- What turns change of a manager is what its driver keeps for it. -/
theorem manager (h : Turns turn ns M d M' d') {m : Manager} (hm : M n = some m) :
    ∃ state, M' n = some { m with state } := by
  induction h generalizing m with
  | nil => exact ⟨m.state, hm⟩
  | @cons k ns M M' mk state d mid d' found step rest ih =>
    by_cases hk : n = k
    · subst hk
      obtain rfl := Option.some.inj (found.symm.trans hm)
      exact ih (m := { mk with state }) (Function.update_self ..)
    · exact ih (by rw [Function.update_of_ne hk, hm])

theorem work (h : Turns turn ns M d M' d') {ids : List ManagerId} (hs : M.Work ids) :
    M'.Work ids := by
  intro n hn
  obtain ⟨m, hm, hw⟩ := hs n hn
  obtain ⟨state, hstate⟩ := h.manager hm
  exact ⟨_, hstate, hw⟩

theorem knows_iff (h : Turns turn ns M d M' d') {ids : List ManagerId} {c : Definition} :
    M'.Knows ids c ↔ M.Knows ids c := by
  rw [Staff.Knows, Staff.Knows, h.model?_eq]

/-- What no turn undoes outlasts all of them. -/
theorem preserves {P : Definition → Prop} (h : Turns turn ns M d M' d')
    (hstep : ∀ n ∈ ns, ∀ m, M.model? n = some m.driver.name → ∀ d state d',
      turn m d state d' → P d → P d') (hd : P d) : P d' := by
  induction h with
  | nil => exact hd
  | @cons n ns M M' m state d mid d' found step rest ih =>
    refine ih (fun k hk mk hmk => ?_)
      (hstep n (List.mem_cons_self ..) m (Staff.model?_eq found) d state mid step hd)
    rw [Staff.model?_update found] at hmk
    exact hstep k (List.mem_cons_of_mem n hk) mk hmk

/-- Turns see the entries of other models, and leave them alone. -/
def OwnModel (turn : Manager → Definition → DriverState → Definition → Prop) : Prop :=
  ∀ m d state d', turn m d state d' → ∀ other, other ≠ m.driver.name →
    d'.findEntry other = d.findEntry other

/-- Without a turn for its model an entry stays as it is. -/
theorem findEntry_of_foreign (hturn : OwnModel turn) (h : Turns turn ns M d M' d') {model : String}
    (hne : ∀ n ∈ ns, M.model? n ≠ some model) : d'.findEntry model = d.findEntry model := by
  refine h.preserves (P := fun x => x.findEntry model = d.findEntry model) ?_ rfl
  intro n hn m hm a state b hstep ha
  rw [hturn m a state b hstep model, ha]
  rintro rfl
  exact hne n hn hm

/-- A turn, and what comes before and after it. -/
theorem split (h : Turns turn (done ++ n :: later) M d M' d') {m : Manager} (hm : M n = some m) :
    ∃ N a kept state b, Turns turn done M d N a ∧ N n = some { m with state := kept } ∧
      turn { m with state := kept } a state b ∧
      Turns turn later (Function.update N n (some { m with state })) b M' d' ∧
      Staff.model? (Function.update N n (some { m with state })) = M.model? := by
  obtain ⟨N, a, hfirst, hrest⟩ := h.append
  obtain ⟨kept, hN⟩ := hfirst.manager hm
  cases hrest with
  | @cons _ _ _ _ m' state _ b _ found step rest =>
    obtain rfl := Option.some.inj (hN.symm.trans found)
    have hmodels := (Staff.model?_update hN state).trans hfirst.model?_eq
    exact ⟨N, a, kept, state, b, hfirst, hN, step, rest, hmodels⟩

/-- The only turn for a model: its manager is as it was, and so is the entry of the model. -/
theorem solo (hturn : OwnModel turn) (h : Turns turn (done ++ n :: later) M d M' d') {m : Manager}
    (hm : M n = some m) (hdone : ∀ k ∈ done, M.model? k ≠ some m.driver.name)
    (hlater : ∀ k ∈ later, M.model? k ≠ some m.driver.name) :
    ∃ N a state b, Turns turn done M d N a ∧ turn m a state b ∧
      Turns turn later (Function.update N n (some { m with state })) b M' d' ∧
      a.findEntry m.driver.name = d.findEntry m.driver.name ∧
      d'.findEntry m.driver.name = b.findEntry m.driver.name ∧
      M' n = some { m with state } := by
  have hself := Staff.model?_eq hm
  obtain ⟨N, a, kept, state, b, hfirst, hN, hstep, hrest, hmodels⟩ := h.split hm
  obtain rfl : kept = m.state := by
    rw [hfirst.of_not_mem fun hn => hdone n hn hself, hm] at hN
    exact (congrArg Manager.state (Option.some.inj hN)).symm
  refine ⟨N, a, state, b, hfirst, hstep, hrest, hfirst.findEntry_of_foreign hturn hdone,
    hrest.findEntry_of_foreign hturn (by rwa [hmodels]), ?_⟩
  rw [hrest.of_not_mem fun hn => hlater n hn hself, Function.update_self]

end Turns

/-! ### A turn in a generation -/

theorem Policy.uuid_prepared (p : Policy) (model : String) (d : Definition) :
    (p.prepared model d).uuid = d.uuid := by
  unfold prepared
  split <;> rfl

/-- A turn of a manager in a generation that succeeds. -/
inductive Manager.Labels (m : Manager) (d : Definition) : DriverState → Definition → Prop
  /-- The domain has other entries, and needs none that confines nothing. -/
  | passed (missing : d.findEntry m.driver.name = none) (lax : m.policy.defaultConfined = false)
      (optional : m.policy.requireConfined = false) (others : d.entries ≠ []) : m.Labels d m.state d
  /-- The domain's entry, or a new one, is settled by the policy and filled in by the driver. -/
  | completed {state : DriverState} {x : LabelEntry}
      (allowed : m.policy.Allows (m.policy.entryFor m.driver.name d))
      (needed : d.findEntry m.driver.name = none →
        m.policy.defaultConfined = true ∨ d.entries = [])
      (filled : m.driver.technology.Fills d.uuid m.state (m.policy.entryFor m.driver.name d)
        state x) :
      m.Labels d state ((m.policy.prepared m.driver.name d).fill m.driver.name x)

namespace Manager.Labels

variable {m : Manager} {d d' : Definition} {state : DriverState}

/-- What a turn makes of the definition is what the policy of the manager lets a step make of it. -/
theorem settles (h : m.Labels d state d') : m.policy.Settles m.driver.name d d' := by
  cases h with
  | passed missing lax optional others => exact .skipped missing lax optional others
  | @completed _ x allowed needed filled =>
    exact .of_relabelled allowed needed ⟨x.label, x.imageLabel, rfl⟩

theorem ownModel : Turns.OwnModel Labels := fun _ _ _ _ h _ hne => h.settles.findEntry_of_ne hne

theorem uuid (h : m.Labels d state d') : d'.uuid = d.uuid := by
  have hrest := congrArg Definition.uuid h.settles.rest
  exact hrest

/-- The entry that the driver has filled in is the first one of its model then. -/
theorem findEntry_completed (m : Manager) (d : Definition) {state : DriverState} {x : LabelEntry}
    (h : m.driver.technology.Fills d.uuid m.state (m.policy.entryFor m.driver.name d) state x) :
    ((m.policy.prepared m.driver.name d).fill m.driver.name x).findEntry m.driver.name = some x :=
  Definition.findEntry_fill (m.policy.findEntry_prepared m.driver.name d) h.bare

/-- After a turn there is no entry, or one that the driver has filled in. -/
theorem findEntry_cases (h : m.Labels d state d') :
    (d.findEntry m.driver.name = none ∧ d'.findEntry m.driver.name = none ∧ state = m.state) ∨
    ∃ x, d'.findEntry m.driver.name = some x ∧ m.driver.technology.Fills d.uuid m.state
      (m.policy.entryFor m.driver.name d) state x := by
  cases h with
  | passed missing lax optional others => exact .inl ⟨missing, missing, rfl⟩
  | completed allowed needed filled => exact .inr ⟨_, findEntry_completed m d filled, filled⟩

/-- No turn takes all entries away. -/
theorem entries_ne_nil (h : m.Labels d state d') (hd : d.entries ≠ []) : d'.entries ≠ [] := by
  cases h.settles with
  | completed e label imageLabel found allowed =>
    intro hnil
    have hlength := congrArg List.length hnil
    simp only [Definition.editEntry, Definition.length_editFirst, List.length_nil,
      List.length_eq_zero_iff] at hlength
    exact hd hlength
  | skipped missing lax optional others => exact others
  | supplied label imageLabel missing allowed needed => simp [Definition.addEntry]

/-- What is kept for the manager changes only with the level of a dynamic entry. -/
theorem state_cases (h : m.Labels d state d') :
    state = m.state ∨
      ∃ levels levels', m.state = .selinux levels ∧ state = .selinux levels' := by
  cases h with
  | passed missing lax optional others => exact .inl rfl
  | completed allowed needed filled =>
    rcases filled.state_cases with heq | ⟨-, -, hlevels⟩
    · exact .inl heq
    · exact .inr hlevels

/-- An entry whose type is settled keeps all but its labels. -/
theorem bare_kept (h : m.Labels d state d') {model : String} {e : LabelEntry}
    (he : d.findEntry model = some e) (ht : e.type ≠ .undecided) :
    ∃ x, d'.findEntry model = some x ∧ x.bare = e.bare := by
  by_cases hmodel : model = m.driver.name
  · subst hmodel
    rcases h.findEntry_cases with ⟨hn, -⟩ | ⟨x, hx, hfills⟩
    · rw [he] at hn
      cases hn
    · refine ⟨x, hx, ?_⟩
      rw [hfills.bare, Policy.entryFor, he, Option.getD_some, Policy.settle_of_ne ht]
  · exact ⟨e, by rw [ownModel m d state d' h model hmodel, he], rfl⟩

/-- No turn takes an entry away. -/
theorem findEntry_eq_none (h : m.Labels d state d') {model : String}
    (hn : d'.findEntry model = none) : d.findEntry model = none := by
  by_cases hmodel : model = m.driver.name
  · subst hmodel
    rcases h.findEntry_cases with ⟨hnone, -⟩ | ⟨x, hx, -⟩
    · exact hnone
    · rw [hn] at hx
      cases hx
  · rwa [← ownModel m d state d' h model hmodel]

end Manager.Labels

namespace Driver

/-- Built-in drivers are told apart by their names. -/
theorem eq_of_name {dr dr' : Driver} (h : dr ∈ workers) (h' : dr' ∈ workers)
    (hname : dr.name = dr'.name) : dr = dr' := by
  simp only [workers, List.mem_cons, List.not_mem_nil, or_false] at h h'
  rcases h with rfl | rfl | rfl | rfl <;> rcases h' with rfl | rfl | rfl | rfl <;>
    first | rfl | exact absurd hname (by decide)

end Driver

/-! ### All turns of a generation -/

namespace Turns

variable {ns : List ManagerId} {M M' : Staff} {d d' : Definition}

theorem entries_ne_nil (h : Turns Manager.Labels ns M d M' d') (hd : d.entries ≠ []) :
    d'.entries ≠ [] :=
  h.preserves (P := fun d => d.entries ≠ []) (fun _ _ _ _ _ _ _ hstep => hstep.entries_ne_nil) hd

theorem uuid (h : Turns Manager.Labels ns M d M' d') : d'.uuid = d.uuid :=
  h.preserves (P := fun x => x.uuid = d.uuid) (fun _ _ _ _ _ _ _ hstep hd => hstep.uuid.trans hd)
    rfl

theorem findEntry_eq_none (h : Turns Manager.Labels ns M d M' d') {model : String}
    (hn : d'.findEntry model = none) : d.findEntry model = none := by
  by_contra hd
  exact h.preserves (P := fun a => a.findEntry model ≠ none)
    (fun _ _ _ _ _ _ _ hstep ha hb => ha (hstep.findEntry_eq_none hb)) hd hn

/-- An entry whose type is settled keeps all but its labels. -/
theorem bare_kept (h : Turns Manager.Labels ns M d M' d') {model : String} {e : LabelEntry}
    (he : d.findEntry model = some e) (ht : e.type ≠ .undecided) :
    ∃ x, d'.findEntry model = some x ∧ x.bare = e.bare := by
  refine h.preserves (P := fun a => ∃ x, a.findEntry model = some x ∧ x.bare = e.bare) ?_
    ⟨e, he, rfl⟩
  rintro n - m - a state b hstep ⟨y, hy, hbare⟩
  have hty : y.type ≠ .undecided := by rwa [LabelEntry.type_of_bare hbare]
  obtain ⟨x, hx, hx'⟩ := hstep.bare_kept hy hty
  exact ⟨x, hx, hx'.trans hbare⟩

/-- Turns bring in no models but those of the managers. -/
theorem known (h : Turns Manager.Labels ns M d M' d') (hd : M.Knows ns d) : M.Knows ns d' := by
  refine h.preserves (P := fun a => M.Knows ns a) ?_ hd
  intro n hn m hm a state b hstep ha e he model hmodel
  have hmem : model ∈ b.entries.filterMap (·.model) := List.mem_filterMap.mpr ⟨e, he, hmodel⟩
  have hbefore : model ∈ a.entries.filterMap (·.model) → ∃ n ∈ ns, M.model? n = some model := by
    intro hmem
    obtain ⟨e, he, hmodel⟩ := List.mem_filterMap.mp hmem
    exact ha e he model hmodel
  rcases hstep.settles.models with heq | ⟨-, heq⟩
  · exact hbefore (heq ▸ hmem)
  · rw [heq, List.mem_append, List.mem_singleton] at hmem
    rcases hmem with hmem | rfl
    · exact hbefore hmem
    · exact ⟨n, hn, hm⟩

/-- No turn makes a manager keep members, or others than it kept. -/
theorem kept?_eq (h : Turns Manager.Labels ns M d M' d') (n : ManagerId) :
    (M' n).bind Manager.kept? = (M n).bind Manager.kept? := by
  induction h with
  | nil => rfl
  | @cons k ns M M' m state d mid d' found step rest ih =>
    rw [ih]
    by_cases hn : n = k
    · subst hn
      rw [Function.update_self, found]
      rcases step.state_cases with rfl | ⟨levels, levels', hm, rfl⟩
      · rfl
      · simp [Manager.kept?, hm]
    · rw [Function.update_of_ne hn]

/-- The entry that is left for a manager's model is settled, and was filled in by the manager's
driver, for the manager or for a later one. -/
theorem filled (hw : M.Work ns) (h : Turns Manager.Labels ns M d M' d') {n : ManagerId}
    {m : Manager} (hn : n ∈ ns) (hm : M n = some m) {x : LabelEntry}
    (hx : d'.findEntry m.driver.name = some x) :
    x.type ≠ .undecided ∧
      ∃ state e state', m.driver.technology.Fills d.uuid state e state' x := by
  obtain ⟨done, k, later, rfl, hk, hlater⟩ := Staff.exists_last ⟨n, hn, Staff.model?_eq hm⟩
  obtain ⟨mk, hmk, hname⟩ := Staff.eq_of_model? hk
  have hmem : k ∈ done ++ k :: later := List.mem_append_right done (List.mem_cons_self ..)
  have hdriver := Driver.eq_of_name (hw.driver hmem hmk) (hw.driver hn hm) hname
  obtain ⟨N, a, kept, state, b, hfirst, -, hstep, hrest, hmodels⟩ := h.split hmk
  rw [← hname] at hx hlater
  rw [hrest.findEntry_of_foreign Manager.Labels.ownModel (by rwa [hmodels])] at hx
  rcases hstep.findEntry_cases with ⟨-, hnone, -⟩ | ⟨y, hy, hfills⟩
  · rw [hx] at hnone
    cases hnone
  · obtain rfl := Option.some.inj (hx.symm.trans hy)
    rw [← hfirst.uuid, ← hdriver]
    exact ⟨hfills.type ▸ mk.policy.type_settle_ne _, _, _, _, hfills⟩

end Turns

/-! ### Turns and the engine -/

namespace Driver

theorem hooks_of_mem_workers {dr : Driver} (h : dr ∈ workers) : dr.hooks = {} := by
  simp only [workers, List.mem_cons, List.not_mem_nil, or_false] at h
  rcases h with rfl | rfl | rfl | rfl <;> rfl

/-- Without an entry there is nothing to check. -/
theorem perform_verify_of_missing {dr : Driver} (hw : dr ∈ workers) {s : Scene}
    (hn : s.findEntry dr.name = .none) : dr.technology.perform .verify s = (.ok (), s) := by
  have hn : s.definition.findEntry dr.name = .none := hn
  simp only [workers, List.mem_cons, List.not_mem_nil, or_false] at hw
  rcases hw with rfl | rfl | rfl | rfl
  · have hv : Selinux.verify s.definition = .ok () := by
      rw [Selinux.verify, show s.definition.findEntry Selinux.model = .none from hn]
    simp only [selinux, Technology.perform, Selinux.perform, hv]
    rfl
  · have hv : AppArmor.verify s.definition = .ok () := by
      rw [AppArmor.verify, show s.definition.findEntry AppArmor.model = .none from hn]
    simp only [apparmor, Technology.perform, AppArmor.perform, hv]
    rfl
  · have hv : Dac.verify s.definition = .ok () := by
      rw [Dac.verify, show s.definition.findEntry Dac.model = .none from hn]
    simp only [dac, Technology.perform, Dac.perform, hv]
    rfl
  · rfl

end Driver

theorem Stage.manager?_leave_eq {st : Stage} {id : ManagerId} {m : Manager}
    (hm : st.engine.manager? id = some m) (op : Operation) (s : Scene) :
    (st.leave id m op s).engine.manager? =
      Function.update st.engine.manager? id (some { m with state := s.state }) := by
  funext n
  by_cases hn : n = id
  · subst hn
    rw [manager?_leave hm, Function.update_self]
  · rw [Function.update_of_ne hn, leave, engine_redefine, Engine.manager?_setManager_of_ne _ hn]
    rfl

namespace Engine

variable {s : Engine} {id : ManagerId} {m : Manager} {st st' : Stage}

/-- To ask a built-in driver for an operation is to have its technology work on the scene. A check
that does not concern the domain would come to nothing. -/
theorem edit_worker (hm : s.manager? id = some m) (hw : m.driver ∈ Driver.workers)
    {op : Operation} {d : Definition} {r : Except Error Unit} {out : Scene}
    (h : m.driver.technology.perform op ⟨m.driver.name, m.state, s.host, d⟩ = (r, out)) :
    ∃ t, edit id op ⟨s, d⟩ = (r, ⟨t, if op.edits then out.definition else d⟩) ∧
      t.manager? = Function.update s.manager? id (some { m with state := out.state }) ∧
      t.host = out.host := by
  have hhooks : m.driver.hooks.perform s.trace op d = none := by
    rw [Driver.hooks_of_mem_workers hw]
  have hn := Manager.members?_of_ne (Driver.fillsOwnEntry_of_mem_workers hw).single
  cases hc : (Stage.mk s d).concerns op m with
  | true =>
    let noted := (Stage.mk s d).record id m.driver op
    have hnoted : noted.engine.manager? id = some m := hm
    have hperform : m.driver.technology.perform op (noted.scene m) = (r, out) := h
    have hleft : noted.leave id m op out =
        ⟨(noted.leave id m op out).engine, if op.edits then out.definition else d⟩ := by
      unfold Stage.leave Stage.redefine
      split <;> rfl
    refine ⟨(noted.leave id m op out).engine, ?_,
      Stage.manager?_leave_eq hnoted op out, ?_⟩
    · rw [← hleft, edit_of_members?_none hm hn, Stage.visit, manager_eq_ok_iff.mpr hm]
      simp only [hc, Bool.true_eq_false, if_false, hhooks]
      rw [hperform]
    · rw [Stage.leave, Stage.engine_redefine]
      rfl
  | false =>
    obtain ⟨rfl, hmissing⟩ : op = .verify ∧ d.findEntry m.driver.name = none := by
      simpa [Stage.concerns] using hc
    rw [Driver.perform_verify_of_missing (s := ⟨m.driver.name, m.state, s.host, d⟩) hw hmissing]
      at h
    obtain ⟨rfl, rfl⟩ := Prod.mk.inj h
    refine ⟨s, ?_, by rw [← hm, Function.update_eq_self], rfl⟩
    rw [edit_of_members?_none hm hn, Stage.visit, manager_eq_ok_iff.mpr hm]
    simp only [hc, if_true]
    rfl

/-- The answer of a built-in driver is that of its technology. -/
theorem ask_worker (hm : s.manager? id = some m) (hw : m.driver ∈ Driver.workers) (q : Question)
    (d : Definition) :
    (s.ask id q d).1 = m.driver.technology.answer q ⟨m.driver.name, m.state, s.host, d⟩ := by
  have hn := Manager.members?_of_ne (Driver.fillsOwnEntry_of_mem_workers hw).single
  have hhooks : m.driver.hooks.answer s.trace q d = none := by
    rw [Driver.hooks_of_mem_workers hw]
  rw [ask, tree_of_members?_none hm hn, Tree.ask, consult, manager_eq_ok_iff.mpr hm]
  simp only [hhooks]

/-- A turn is what a step of the manager comes to. -/
theorem generateOne_of_labels (hm : st.engine.manager? id = some m)
    (hw : m.driver ∈ Driver.workers) {state : DriverState} {d' : Definition}
    (h : m.Labels st.definition state d') :
    ∃ t, generateOne id st = (.ok (), ⟨t, d'⟩) ∧
      t.manager? = Function.update st.engine.manager? id (some { m with state }) := by
  rcases generateOne_cases hm with
    ⟨-, hr⟩ | ⟨hg, hn, hlax, hopt, hne⟩ | ⟨-, hneed, undo, hg, -⟩
  · refine absurd ?_ hr
    cases h with
    | passed missing lax optional others => simp [Policy.Allows, optional]
    | completed allowed needed filled => exact allowed
  · cases h with
    | passed missing lax optional others =>
      exact ⟨st.engine, hg, by rw [← hm, Function.update_eq_self]⟩
    | completed allowed needed filled =>
      rcases needed hn with hd | hd
      · rw [hlax] at hd
        cases hd
      · exact absurd hd hne
  · cases h with
    | passed missing lax optional others =>
      rcases hneed missing with hd | hd
      · rw [lax] at hd
        cases hd
      · exact absurd hd others
    | @completed _ x allowed needed filled =>
      have hperform := Driver.perform_generate_of_fills (s := ⟨m.driver.name, m.state,
          st.engine.host, m.policy.prepared m.driver.name st.definition⟩) hw
        (m.policy.findEntry_prepared m.driver.name st.definition)
        (by rwa [Policy.uuid_prepared])
      obtain ⟨t, hedit, ht, -⟩ := edit_worker hm hw hperform
      rw [hedit] at hg
      exact ⟨t, hg, ht⟩

/-- A step of a built-in driver's manager is a turn, or it fails and changes nothing. -/
theorem generateOne_cases_labels (hm : st.engine.manager? id = some m)
    (hw : m.driver ∈ Driver.workers) :
    (∃ state d' t, m.Labels st.definition state d' ∧ generateOne id st = (.ok (), ⟨t, d'⟩) ∧
      t.manager? = Function.update st.engine.manager? id (some { m with state })) ∨
    ∃ e t, generateOne id st = (.error e, ⟨t, st.definition⟩) ∧
      t.manager? = st.engine.manager? := by
  have hself : Function.update st.engine.manager? id (some m) = st.engine.manager? := by
    rw [← hm, Function.update_eq_self]
  rcases generateOne_cases hm with
    ⟨hg, -⟩ | ⟨hg, hn, hlax, hopt, hne⟩ | ⟨ha, hneed, undo, hg, hundo⟩
  · exact .inr ⟨_, st.engine, hg, rfl⟩
  · exact .inl ⟨m.state, st.definition, st.engine, .passed hn hlax hopt hne, hg, hself.symm⟩
  · rcases Driver.perform_generate_cases (s := ⟨m.driver.name, m.state, st.engine.host,
        m.policy.prepared m.driver.name st.definition⟩) hw
      (m.policy.findEntry_prepared m.driver.name st.definition) with
      ⟨state, x, hfills, hperform⟩ | ⟨err, hperform⟩
    · obtain ⟨t, hedit, ht, -⟩ := edit_worker hm hw hperform
      rw [hedit] at hg
      rw [Policy.uuid_prepared] at hfills
      exact .inl ⟨state, _, t, .completed ha hneed hfills, hg, ht⟩
    · obtain ⟨t, hedit, ht, -⟩ := edit_worker hm hw hperform
      rw [hedit] at hg
      refine .inr ⟨err, t, ?_, ht.trans hself⟩
      rw [hg]
      exact congrArg (fun d => (Except.error err, Stage.mk t d))
        (hundo _ (.refl m.driver.name _))

/-- A run of steps that succeeds gives every manager its turn. -/
theorem turns_of_generateEach {ids : List ManagerId} (hs : Staff.Work st.engine.manager? ids)
    (h : generateEach ids st = (.ok (), st')) :
    Turns Manager.Labels ids st.engine.manager? st.definition st'.engine.manager?
      st'.definition := by
  induction ids generalizing st with
  | nil =>
    obtain ⟨-, rfl⟩ := Prod.mk.inj h
    exact .nil
  | cons n ids ih =>
    obtain ⟨m, hm, hw⟩ := hs n (List.mem_cons_self ..)
    rcases generateOne_cases_labels hm hw with ⟨state, mid, t, hstep, hg, ht⟩ | ⟨e, t, hg, -⟩
    · have hrest := (generateEach_cons_ok h).2
      rw [hg] at hrest
      have hwork : Staff.Work t.manager? ids := by
        rw [ht]
        exact hs.tail.update hm state
      have hturns := @ih ⟨t, mid⟩ hwork hrest
      rw [ht] at hturns
      exact .cons hm hstep hturns
    · have hok := (generateEach_cons_ok h).1
      rw [hg] at hok
      cases hok

/-- Turns that the managers can have make a run of steps that succeeds. -/
theorem generateEach_of_turns {ids : List ManagerId} {M' : Staff} {d' : Definition}
    (hs : Staff.Work st.engine.manager? ids)
    (h : Turns Manager.Labels ids st.engine.manager? st.definition M' d') :
    ∃ t, generateEach ids st = (.ok (), ⟨t, d'⟩) ∧ t.manager? = M' := by
  induction ids generalizing st with
  | nil =>
    cases h
    exact ⟨st.engine, rfl, rfl⟩
  | cons n ids ih =>
    cases h with
    | @cons _ _ _ _ m state _ mid _ found step rest =>
      obtain ⟨t, hg, ht⟩ :=
        generateOne_of_labels found (hs.driver (List.mem_cons_self ..) found) step
      have hwork : Staff.Work t.manager? ids := by
        rw [ht]
        exact hs.tail.update found state
      rw [← ht] at rest
      obtain ⟨u, hrun, hu⟩ := @ih ⟨t, mid⟩ hwork rest
      refine ⟨u, ?_, hu⟩
      rw [generateEach, hg]
      exact hrun

/-- No model is unknown if every one is that of a manager. -/
theorem unknownModel?_of_known {ids : List ManagerId} {d : Definition}
    (h : Staff.Knows s.manager? ids d) : s.unknownModel? ids d = none := by
  refine List.find?_eq_none.mpr fun model hmem => ?_
  obtain ⟨e, he, hmodel⟩ := List.mem_filterMap.mp hmem
  obtain ⟨n, hn, hm⟩ := h e he model hmodel
  obtain ⟨m, hm, hname⟩ := Staff.eq_of_model? hm
  simp [provides_eq_true_iff.mpr ⟨n, hn, m, hm, hname⟩]

/-- Where all models are known a generation is a run of steps. -/
theorem generateLabels_of_known {d : Definition} (h : Staff.Knows s.manager? (s.nested id) d) :
    generateLabels id ⟨s, d⟩ = generateEach (s.nested id) ⟨s, d⟩ := by
  simp only [generateLabels, unknownModel?_of_known h]

/-- A generation that succeeds knows all models, and gives every nested manager its turn. -/
theorem turns_of_generateLabels {d : Definition} (hs : Staff.Work s.manager? (s.nested id))
    (h : generateLabels id ⟨s, d⟩ = (.ok (), st')) :
    Staff.Knows s.manager? (s.nested id) d ∧
      Turns Manager.Labels (s.nested id) s.manager? d st'.engine.manager? st'.definition := by
  rcases generateLabels_cases s id d with ⟨_, _, _, _, _, hg⟩ | ⟨hknown, hg⟩
  · rw [hg] at h
    cases h
  · rw [hg] at h
    refine ⟨fun e he model hmodel => ?_, turns_of_generateEach hs h⟩
    obtain ⟨n, hn, m, hm, hname⟩ := hknown e he model hmodel
    exact ⟨n, hn, hname ▸ Staff.model?_eq hm⟩

end Engine

end Confinement
