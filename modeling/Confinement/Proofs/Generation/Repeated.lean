import Confinement.Proofs.Generation.Turns

/-!
# Generating labels once more

When every model has one manager, a generation leaves each manager at rest: asked again, the driver
fills in what is there already, or it has made up a label that it does not make up again. So a
second generation changes neither the definition nor what any driver keeps, however far it comes.
-/

namespace Confinement

namespace Policy

variable {p : Policy} {model : String} {d : Definition} {e : LabelEntry}

/-- What is settled is not settled again. -/
theorem entryFor_of_settled (hf : d.findEntry model = some e) (ht : e.type ≠ .undecided) :
    p.entryFor model d = e := by
  rw [entryFor, hf, Option.getD_some, settle_of_ne ht]

theorem prepared_of_settled (hf : d.findEntry model = some e) (ht : e.type ≠ .undecided) :
    p.prepared model d = d := by
  simp only [prepared, hf]
  refine Definition.editEntry_self fun e' he' => ?_
  obtain rfl := Option.some.inj (hf.symm.trans he')
  exact settle_of_ne ht

end Policy

/-! ### Managers at rest -/

namespace Manager

variable {m : Manager} {d : Definition} {x : LabelEntry}

/-- The driver has made up a label for the domain, and refuses to do so again. -/
def Refuses (m : Manager) (d : Definition) : Prop :=
  ∃ x, d.findEntry m.driver.name = some x ∧ m.driver.technology.MakesOnce x ∧ x.label ≠ none

/-- A turn of the manager changes nothing, or the driver refuses. -/
def AtRest (m : Manager) (d : Definition) : Prop := m.Labels d m.state d ∨ m.Refuses d

theorem Refuses.not_labels (h : m.Refuses d) (state : DriverState) (d' : Definition) :
    ¬m.Labels d state d' := by
  obtain ⟨x, hx, hmakes, hlabel⟩ := h
  intro hstep
  rcases hstep.findEntry_cases with ⟨hnone, -⟩ | ⟨y, -, hfills⟩
  · rw [hx] at hnone
    cases hnone
  · have ht : x.type ≠ .undecided := by
      rw [hmakes.2]
      decide
    rw [Policy.entryFor_of_settled hx ht] at hfills
    exact hlabel (hfills.made ⟨hmakes.1, hfills.type.trans hmakes.2⟩).1

/-- What a driver fills in for an entry that is settled makes a turn of its manager. -/
theorem labels_of_fills {e : LabelEntry} {state : DriverState}
    (he : d.findEntry m.driver.name = some e) (ht : e.type ≠ .undecided)
    (ha : m.policy.Allows e) (h : m.driver.technology.Fills d.uuid m.state e state x) :
    m.Labels d state (d.fill m.driver.name x) := by
  have hentry := Policy.entryFor_of_settled (p := m.policy) he ht
  have hstep : m.Labels d state ((m.policy.prepared m.driver.name d).fill m.driver.name x) := by
    refine .completed (by rwa [hentry]) (fun hnone => ?_) (by rwa [hentry])
    rw [he] at hnone
    cases hnone
  rwa [Policy.prepared_of_settled he ht] at hstep

/-- The only turn for a model leaves its manager at rest, and later turns leave it so. -/
theorem Labels.atRest {state : DriverState} {a b d' : Definition} {ns : List ManagerId}
    {M M' : Staff} (h : m.Labels a state b) (hrest : Turns Labels ns M b M' d')
    (hf : d'.findEntry m.driver.name = b.findEntry m.driver.name) :
    Manager.AtRest { m with state } d' := by
  cases h with
  | passed missing lax optional others =>
    exact .inl (.passed (hf.trans missing) lax optional (hrest.entries_ne_nil others))
  | @completed _ x allowed needed filled =>
    have hx : d'.findEntry m.driver.name = some x :=
      hf.trans (findEntry_completed m a filled)
    have ht : x.type ≠ .undecided := by
      rw [filled.type]
      exact m.policy.type_settle_ne _
    by_cases hmakes : m.driver.technology.MakesOnce x
    · exact .inr ⟨x, hx, hmakes, (filled.made hmakes).2⟩
    · have huuid : d'.uuid = a.uuid := by
        rw [hrest.uuid]
        exact (Labels.completed allowed needed filled).uuid
      have hallowed : m.policy.Allows x := by
        unfold Policy.Allows at allowed ⊢
        rwa [filled.type]
      have hstep := labels_of_fills (m := { m with state }) hx ht hallowed
        (huuid ▸ filled.again hmakes)
      rw [Definition.fill_self hx] at hstep
      exact .inl hstep

/-- A driver refuses wherever it would have to make up a label. -/
theorem AtRest.refuses_iff (h : m.AtRest d) : m.Refuses d ↔
    ∃ x, d.findEntry m.driver.name = some x ∧ m.driver.technology.MakesOnce x := by
  constructor
  · rintro ⟨x, hx, hmakes, -⟩
    exact ⟨x, hx, hmakes⟩
  · rintro ⟨x, hx, hmakes⟩
    rcases h with hstep | hrefuses
    · -- Whoever still has a turn has filled in the label, and so has found none.
      refine ⟨x, hx, hmakes, fun hnone => ?_⟩
      rcases hstep.findEntry_cases with ⟨hmissing, -⟩ | ⟨y, hy, hfills⟩
      · rw [hx] at hmissing
        cases hmissing
      · obtain rfl := Option.some.inj (hx.symm.trans hy)
        exact (hfills.made hmakes).2 hnone
    · exact hrefuses

end Manager

/-- With one manager for each model all turns leave the managers at rest. -/
theorem Turns.atRest {ns : List ManagerId} {M M' : Staff} {d d' : Definition}
    (h : Turns Manager.Labels ns M d M' d') (hnames : (ns.filterMap M.model?).Nodup) :
    ∀ n ∈ ns, ∀ m, M' n = some m → m.AtRest d' := by
  intro n hn m' hm'
  obtain ⟨done, later, rfl⟩ := List.append_of_mem hn
  obtain ⟨m, hm⟩ : ∃ m, M n = some m := by
    have hmodel := congrFun h.model?_eq n
    rw [Staff.model?_eq hm'] at hmodel
    obtain ⟨m, hm, -⟩ := Staff.eq_of_model? hmodel.symm
    exact ⟨m, hm⟩
  rw [List.filterMap_append, List.filterMap_cons_some (Staff.model?_eq hm)] at hnames
  obtain ⟨-, hback, hapart⟩ := List.nodup_append.mp hnames
  have hdone : ∀ k ∈ done, M.model? k ≠ some m.driver.name := fun k hk hmodel =>
    hapart _ (List.mem_filterMap.mpr ⟨k, hk, hmodel⟩) _ (List.mem_cons_self ..) rfl
  have hlater : ∀ k ∈ later, M.model? k ≠ some m.driver.name := fun k hk hmodel =>
    (List.nodup_cons.mp hback).1 (List.mem_filterMap.mpr ⟨k, hk, hmodel⟩)
  obtain ⟨N, a, state, b, -, hstep, hrest, -, hf, hM'⟩ :=
    h.solo Manager.Labels.ownModel hm hdone hlater
  obtain rfl := Option.some.inj (hM'.symm.trans hm')
  exact hstep.atRest hrest hf

namespace Engine

variable {s : Engine} {id : ManagerId} {d : Definition} {st : Stage}

/-- Managers at rest have steps that change nothing. The run fails exactly at a driver that
refuses. -/
theorem generateEach_atRest {ids : List ManagerId} (hs : Staff.Work st.engine.manager? ids)
    (hrest : ∀ n ∈ ids, ∀ m, st.engine.manager? n = some m → m.AtRest st.definition) :
    (generateEach ids st).2.definition = st.definition ∧
    (generateEach ids st).2.engine.manager? = st.engine.manager? ∧
    ((∃ e, (generateEach ids st).1 = .error e) ↔
      ∃ n ∈ ids, ∃ m, st.engine.manager? n = some m ∧ m.Refuses st.definition) := by
  induction ids generalizing st with
  | nil => simp
  | cons n ids ih =>
    obtain ⟨m, hm, hw⟩ := hs n (List.mem_cons_self ..)
    rcases hrest n (List.mem_cons_self ..) m hm with hstep | hrefuses
    · obtain ⟨t, hg, ht⟩ := generateOne_of_labels hm hw hstep
      rw [← hm, Function.update_eq_self] at ht
      have hnot : ¬m.Refuses st.definition := fun h => h.not_labels _ _ hstep
      have hrun := @ih ⟨t, st.definition⟩
        (ht ▸ fun k hk => hs k (List.mem_cons_of_mem n hk))
        (ht ▸ fun k hk => hrest k (List.mem_cons_of_mem n hk))
      rw [ht] at hrun
      rw [generateEach, hg]
      refine ⟨hrun.1, hrun.2.1, hrun.2.2.trans ?_⟩
      rw [List.exists_mem_cons_iff]
      refine ⟨.inr, ?_⟩
      rintro (⟨m', hm', hrefuses⟩ | hlater)
      · obtain rfl := Option.some.inj (hm.symm.trans hm')
        exact absurd hrefuses hnot
      · exact hlater
    · rcases generateOne_cases_labels hm hw with ⟨state, d', t, hstep, -⟩ | ⟨e, t, hg, ht⟩
      · exact absurd hstep (hrefuses.not_labels state d')
      · rw [generateEach, hg]
        exact ⟨rfl, ht, fun _ => ⟨n, List.mem_cons_self .., m, hm, hrefuses⟩, fun _ => ⟨e, rfl⟩⟩

/-- A second generation changes neither the definition nor what is kept for any manager. It fails
exactly if a manager of contexts or of profiles finds that its entry is dynamic. -/
theorem generateLabels_again
    (hs : ∀ n ∈ s.nested id, ∃ m, s.manager? n = some m ∧ m.driver ∈ Driver.workers)
    (hnames : ((s.managersOf (s.nested id)).map (·.driver.name)).Nodup)
    (h : generateLabels id ⟨s, d⟩ = (.ok (), st)) :
    (generateLabels id st).2.definition = st.definition ∧
    (∀ n, (generateLabels id st).2.engine.manager? n = st.engine.manager? n) ∧
    ((∃ e, (generateLabels id st).1 = .error e) ↔
      ∃ n ∈ s.nested id, ∃ m, s.manager? n = some m ∧
        (m.driver = .selinux ∨ m.driver = .apparmor) ∧
        ∃ x, st.definition.findEntry m.driver.name = some x ∧ x.type = .dynamic) := by
  obtain ⟨hknown, hturns⟩ := turns_of_generateLabels hs h
  have hnested : st.engine.nested id = s.nested id := by
    rw [nested_eq, nested_eq, hturns.kept?_eq]
  have hagain : generateLabels id st = generateEach (s.nested id) st := by
    rw [← hnested]
    refine generateLabels_of_known ?_
    rw [hnested]
    exact hturns.knows_iff.mpr (hturns.known hknown)
  have hmodels : ((s.nested id).filterMap (Staff.model? s.manager?)).Nodup := by
    have heq : (s.managersOf (s.nested id)).map (·.driver.name) =
        (s.nested id).filterMap (Staff.model? s.manager?) := List.map_filterMap ..
    rwa [← heq]
  have hrest := hturns.atRest hmodels
  obtain ⟨hd, hm, herror⟩ := generateEach_atRest (hturns.work hs) hrest
  rw [hagain]
  refine ⟨hd, congrFun hm, herror.trans ?_⟩
  constructor
  · rintro ⟨n, hn, m', hm', hrefuses⟩
    obtain ⟨m, hm, hw⟩ := hs n hn
    obtain ⟨state, hstate⟩ := hturns.manager hm
    obtain rfl := Option.some.inj (hstate.symm.trans hm')
    obtain ⟨x, hx, hmakes⟩ := (hrest n hn _ hstate).refuses_iff.mp hrefuses
    exact ⟨n, hn, m, hm, (Driver.makesOnce_iff hw).mp hmakes |>.1, x, hx, hmakes.2⟩
  · rintro ⟨n, hn, m, hm, hdriver, x, hx, ht⟩
    have hw : m.driver ∈ Driver.workers := Staff.Work.driver hs hn hm
    obtain ⟨state, hstate⟩ := hturns.manager hm
    exact ⟨n, hn, _, hstate,
      (hrest n hn _ hstate).refuses_iff.mpr ⟨x, hx, (Driver.makesOnce_iff hw).mpr ⟨hdriver, ht⟩⟩⟩

def rerunHost : Engine where
  managers :=
    [some ⟨.dac, "qemu", {}, .dac {}⟩,
     some ⟨.apparmor, "qemu", { defaultConfined := true }, .apparmor []⟩,
     some ⟨.stack, "qemu", {}, .stack [0, 1]⟩]
  held := [2]

/-- Ownership has added an entry that confines nothing, and profiles a dynamic one. The second
generation fails at the profile, and the definition stays. -/
theorem again_rerunHost :
    (generateLabels 2 (generateLabels 2 ⟨rerunHost, .guest []⟩).2).2.definition =
        (generateLabels 2 ⟨rerunHost, .guest []⟩).2.definition ∧
      ∃ e, (generateLabels 2 (generateLabels 2 ⟨rerunHost, .guest []⟩).2).1 = .error e := by
  have hs : ∀ n ∈ rerunHost.nested 2,
      ∃ m, rerunHost.manager? n = some m ∧ m.driver ∈ Driver.workers := by
    intro n hn
    have hn : n ∈ [0, 1] := hn
    simp only [List.mem_cons, List.not_mem_nil, or_false] at hn
    rcases hn with rfl | rfl <;> exact ⟨_, rfl, by simp [Driver.workers]⟩
  have hnames : ((rerunHost.managersOf (rerunHost.nested 2)).map (·.driver.name)).Nodup := by
    have h : (rerunHost.managersOf (rerunHost.nested 2)).map (·.driver.name) =
        ["dac", "apparmor"] := rfl
    rw [h]
    decide
  have h : generateLabels 2 ⟨rerunHost, .guest []⟩ =
      (.ok (), (generateLabels 2 ⟨rerunHost, .guest []⟩).2) := by rfl
  obtain ⟨hd, -, herror⟩ := generateLabels_again hs hnames h
  exact ⟨hd, herror.mpr ⟨1, by decide, _, rfl, .inr rfl, _, rfl, rfl⟩⟩

end Engine

end Confinement
