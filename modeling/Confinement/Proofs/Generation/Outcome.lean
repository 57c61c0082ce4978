import Confinement.Proofs.Generation.Run

/-!
# A generation that succeeds

A run of steps is followed manager by manager. Managers of different models do not meddle with each
other's entries, so what a run makes of an entry is what the entry's own manager makes of it, and
what it adds is what each manager adds for itself.
-/

namespace Confinement

/-! ### What becomes of one entry -/

/-- What a policy and a driver make of an entry. The driver may set the labels. -/
structure Policy.Completes (p : Policy) (e e' : LabelEntry) : Prop where
  model : e'.model = e.model
  baseLabel : e'.baseLabel = e.baseLabel
  implicit : e'.implicit = e.implicit
  /-- What the domain left open is confined, if that is the default. -/
  confined : e.type = .undecided → p.defaultConfined = true →
    e'.type = .dynamic ∧ e'.noRelabel = e.noRelabel
  /-- Otherwise it is not confined, and its resources keep their labels. -/
  unconfined : e.type = .undecided → p.defaultConfined = false →
    e'.type = .unconfined ∧ e'.noRelabel = true
  /-- What the domain decided stays as it is. -/
  decided : e.type ≠ .undecided → e'.type = e.type ∧ e'.noRelabel = e.noRelabel

theorem Policy.completes_settle (p : Policy) (e : LabelEntry) (label imageLabel : Option String) :
    p.Completes e ((p.settle e).withLabels label imageLabel) := by
  refine ⟨by simp, by simp, by simp, ?_, ?_, ?_⟩
  · intro he hp
    simp [settle, he, hp]
  · intro he hp
    simp [settle, he, hp]
  · intro he
    simp [settle_of_ne he]

theorem Policy.Completes.type_ne {p : Policy} {e e' : LabelEntry} (h : p.Completes e e') :
    e'.type ≠ .undecided := by
  by_cases he : e.type = .undecided
  · cases hp : p.defaultConfined with
    | true =>
      rw [(h.confined he hp).1]
      decide
    | false =>
      rw [(h.unconfined he hp).1]
      decide
  · rw [(h.decided he).1]
    exact he

/-- What a run of managers makes of an entry that the domain has. -/
inductive Manager.Keeps (ms : List Manager) (e : LabelEntry) : LabelEntry → Prop
  /-- The manager of the entry's model has completed it. -/
  | completed {m : Manager} {e' : LabelEntry} (mem : m ∈ ms) (own : e.model = some m.driver.name)
      (done : m.policy.Completes e e') : Keeps ms e e'
  /-- The entry belongs to none of the managers. -/
  | untouched (foreign : ∀ m ∈ ms, e.model ≠ some m.driver.name) : Keeps ms e e

theorem Manager.Keeps.model {ms : List Manager} {e e' : LabelEntry} (h : Keeps ms e e') :
    e'.model = e.model := by
  cases h with
  | completed mem own done => exact done.model
  | untouched foreign => rfl

/-- A manager whose model the entry is not of makes no difference to it. -/
theorem Manager.Keeps.cons {m : Manager} {ms : List Manager} {e e' : LabelEntry}
    (h : Keeps ms e e') (hne : e.model ≠ some m.driver.name) : Keeps (m :: ms) e e' := by
  cases h with
  | completed mem own done => exact .completed (List.mem_cons_of_mem m mem) own done
  | untouched foreign =>
    refine .untouched fun n hn => ?_
    rcases List.mem_cons.mp hn with rfl | hn
    · exact hne
    · exact foreign n hn

theorem Manager.Keeps.eq_of_foreign {ms : List Manager} {e e' : LabelEntry} (h : Keeps ms e e')
    (hne : ∀ m ∈ ms, e.model ≠ some m.driver.name) : e' = e := by
  cases h with
  | completed mem own done => exact absurd own (hne _ mem)
  | untouched foreign => rfl

/-! ### Steps of a run -/

namespace Policy.Settles

variable {p : Policy} {model : String} {d d' : Definition}

/-- A step leaves everything but the entries alone. -/
theorem rest (h : p.Settles model d d') : { d' with entries := d.entries } = d := by
  cases h <;> rfl

/-- A step finds and adds no entries of other models. -/
theorem findEntry_of_ne (h : p.Settles model d d') {other : String} (hne : other ≠ model) :
    d'.findEntry other = d.findEntry other := by
  cases h with
  | completed e label imageLabel found allowed =>
    exact Definition.findEntry_editEntry_of_ne (by simp) hne
  | skipped missing lax optional others => rfl
  | supplied label imageLabel missing allowed needed =>
    rw [Definition.findEntry_addEntry]
    simp [LabelEntry.implied, Ne.symm hne]

theorem models (h : p.Settles model d d') :
    d'.entries.filterMap (·.model) = d.entries.filterMap (·.model) ∨
      d.findEntry model = none ∧
        d'.entries.filterMap (·.model) = d.entries.filterMap (·.model) ++ [model] := by
  cases h with
  | completed e label imageLabel found allowed =>
    refine .inl ?_
    unfold Definition.editEntry
    dsimp only
    induction d.entries with
    | nil => rfl
    | cons x rest ih =>
      unfold Definition.editFirst
      split
      · simp [List.filterMap_cons]
      · simp only [List.filterMap_cons, ih]
  | skipped missing lax optional others => exact .inl rfl
  | supplied label imageLabel missing allowed needed =>
    exact .inr ⟨missing, by simp [Definition.addEntry, LabelEntry.implied]⟩

/-- No step makes a model ambiguous. -/
theorem unambiguous (h : p.Settles model d d') (hd : d.Unambiguous) : d'.Unambiguous := by
  unfold Definition.Unambiguous at hd ⊢
  rcases h.models with hm | ⟨hn, hm⟩
  · rwa [hm]
  · rw [hm]
    refine List.nodup_append.mpr ⟨hd, by simp, ?_⟩
    rintro a ha b hb rfl
    obtain rfl := List.mem_singleton.mp hb
    obtain ⟨e, he, hmodel⟩ := List.mem_filterMap.mp ha
    exact Definition.findEntry_eq_none_iff.mp hn e he hmodel

/-- After a step of a manager the domain is as confined as the manager requires. -/
theorem confines (h : p.Settles model d d') (hp : p.requireConfined = true) :
    d'.Confines model := by
  cases h with
  | completed e label imageLabel found allowed =>
    refine ⟨(p.settle e).withLabels label imageLabel, ?_, allowed.confined hp⟩
    rw [Definition.findEntry_editEntry (by simp), found]
    rfl
  | skipped missing lax optional others =>
    rw [hp] at optional
    cases optional
  | supplied label imageLabel missing allowed needed =>
    refine ⟨(p.settle (.implied model)).withLabels label imageLabel, ?_, allowed.confined hp⟩
    rw [Definition.findEntry_addEntry, missing]
    simp [LabelEntry.implied]

/-- A step ends without an entry only where a policy without demands finds other entries. -/
theorem findEntry_eq_none_iff (h : p.Settles model d d') :
    d'.findEntry model = none ↔ d.findEntry model = none ∧ p.defaultConfined = false ∧
      p.requireConfined = false ∧ d.entries ≠ [] := by
  cases h with
  | completed e label imageLabel found allowed =>
    rw [Definition.findEntry_editEntry (by simp), found]
    simp
  | skipped missing lax optional others => simp [missing, lax, optional, others]
  | supplied label imageLabel missing allowed needed =>
    rw [Definition.findEntry_addEntry, missing]
    rcases needed with hc | he
    · simp [LabelEntry.implied, hc]
    · simp [LabelEntry.implied, he]

end Policy.Settles

/-! ### Runs -/

/-- A step sets the labels and the type of its own entry, or adds an entry at the end. -/
theorem Policy.Settles.entries {p : Policy} {model : String} {d d' : Definition}
    (h : p.Settles model d d') (hd : d.Unambiguous) :
    (∃ f : LabelEntry → LabelEntry, (∀ e, p.Completes e (f e)) ∧
      d'.entries = d.entries.map fun e => if e.isFor model = true then f e else e) ∨
    (d.findEntry model = none ∧
      ∃ e, p.Completes (.implied model) e ∧ d'.entries = d.entries ++ [e]) := by
  cases h with
  | completed e label imageLabel found allowed =>
    exact .inl ⟨fun e => (p.settle e).withLabels label imageLabel,
      fun e => p.completes_settle e label imageLabel, Definition.editFirst_eq_map hd model _⟩
  | skipped missing lax optional others =>
    refine .inl ⟨fun e => (p.settle e).withLabels none none,
      fun e => p.completes_settle e none none, ?_⟩
    rw [← Definition.editFirst_eq_map hd model]
    exact (congrArg Definition.entries (Definition.editEntry_of_none missing _)).symm
  | supplied label imageLabel missing allowed needed =>
    exact .inr ⟨missing, _, p.completes_settle _ label imageLabel, rfl⟩

/-- What later managers keep of what a manager has made of its entry, the run keeps. -/
theorem Manager.Keeps.of_map {m : Manager} {ms : List Manager} {f : LabelEntry → LabelEntry}
    (hf : ∀ e, m.policy.Completes e (f e)) (hm : ∀ n ∈ ms, m.driver.name ≠ n.driver.name)
    {e e' : LabelEntry}
    (h : Keeps ms (if e.isFor m.driver.name = true then f e else e) e') :
    Keeps (m :: ms) e e' := by
  by_cases he : e.isFor m.driver.name = true
  · have hmodel := LabelEntry.isFor_iff.mp he
    rw [if_pos he] at h
    cases h with
    | completed mem own done =>
      rw [(hf e).model, hmodel] at own
      exact absurd (Option.some.inj own) (hm _ mem)
    | untouched foreign => exact .completed (List.mem_cons_self ..) hmodel (hf e)
  · rw [if_neg he] at h
    exact h.cons fun hmodel => he (LabelEntry.isFor_iff.mpr hmodel)

theorem exists_of_mem_right {α β : Type} {R : α → β → Prop} {as : List α} {bs : List β}
    (h : List.Forall₂ R as bs) {b : β} (hb : b ∈ bs) : ∃ a ∈ as, R a b := by
  induction h with
  | nil => exact absurd hb List.not_mem_nil
  | @cons a b' as bs hab rest ih =>
    rcases List.mem_cons.mp hb with rfl | hb
    · exact ⟨a, List.mem_cons_self .., hab⟩
    · obtain ⟨a', ha', hR⟩ := ih hb
      exact ⟨a', List.mem_cons_of_mem a ha', hR⟩

/-- A run of steps that succeed, one for each manager. -/
inductive SettledBy : List Manager → Definition → Definition → Prop
  | nil (d : Definition) : SettledBy [] d d
  | cons {m : Manager} {ms : List Manager} {d mid d' : Definition}
      (step : m.policy.Settles m.driver.name d mid) (rest : SettledBy ms mid d') :
      SettledBy (m :: ms) d d'

namespace SettledBy

variable {ms : List Manager} {d d' : Definition}

theorem rest_eq (h : SettledBy ms d d') : { d' with entries := d.entries } = d := by
  induction h with
  | nil d => rfl
  | @cons m ms d mid d' step rest ih =>
    have hstep := step.rest
    rw [← hstep, ← ih]

theorem findEntry_of_foreign (h : SettledBy ms d d') {model : String}
    (hne : ∀ m ∈ ms, model ≠ m.driver.name) : d'.findEntry model = d.findEntry model := by
  induction h with
  | nil d => rfl
  | cons step rest ih =>
    rw [ih fun m hm => hne m (List.mem_cons_of_mem _ hm)]
    exact step.findEntry_of_ne (hne _ (List.mem_cons_self ..))

theorem unambiguous (h : SettledBy ms d d') (hd : d.Unambiguous) : d'.Unambiguous := by
  induction h with
  | nil d => exact hd
  | cons step rest ih => exact ih (step.unambiguous hd)

/-- A run keeps the entries where they are and adds some of its managers' own, in order. -/
theorem entries (h : SettledBy ms d d') (hd : d.Unambiguous)
    (hn : (ms.map (·.driver.name)).Nodup) :
    ∃ kept added fresh, d'.entries = kept ++ added ∧
      List.Forall₂ (Manager.Keeps ms) d.entries kept ∧ List.Sublist fresh ms ∧
      List.Forall₂ (fun m e => m.policy.Completes (.implied m.driver.name) e) fresh added := by
  induction h with
  | nil d =>
    refine ⟨d.entries, [], [], by simp, ?_, .slnil, .nil⟩
    exact List.forall₂_same.mpr fun e _ => .untouched fun m hm => absurd hm List.not_mem_nil
  | @cons m ms d mid d' step rest ih =>
    rw [List.map_cons, List.nodup_cons] at hn
    have hm : ∀ n ∈ ms, m.driver.name ≠ n.driver.name := fun n hn' heq =>
      hn.1 (List.mem_map.mpr ⟨n, hn', heq.symm⟩)
    obtain ⟨kept, added, fresh, heq, hkept, hfresh, hadded⟩ := ih (step.unambiguous hd) hn.2
    rcases step.entries hd with ⟨f, hf, hmid⟩ | ⟨hnone, e, he, hmid⟩
    · rw [hmid, List.forall₂_map_left_iff] at hkept
      refine ⟨kept, added, fresh, heq, hkept.imp fun e e' h => ?_, hfresh.cons m, hadded⟩
      exact .of_map hf hm h
    · rw [hmid] at hkept
      have hfront := List.forall₂_take d.entries.length hkept
      have hback := List.forall₂_drop d.entries.length hkept
      rw [List.take_left' rfl] at hfront
      rw [List.drop_left' rfl] at hback
      obtain ⟨e', rest', hlast, hrest', hdrop⟩ := List.forall₂_cons_left_iff.mp hback
      obtain rfl := List.forall₂_nil_left_iff.mp hrest'
      obtain rfl : e' = e := hlast.eq_of_foreign fun n hn' heq' => by
        rw [he.model] at heq'
        exact hm n hn' (Option.some.inj heq')
      refine ⟨kept.take d.entries.length, e' :: added, m :: fresh, ?_, ?_, hfresh.cons_cons m,
        .cons he hadded⟩
      · calc d'.entries
            = (kept.take d.entries.length ++ kept.drop d.entries.length) ++ added := by
              rw [heq, List.take_append_drop]
          _ = kept.take d.entries.length ++ e' :: added := by
              rw [hdrop, List.append_assoc, List.singleton_append]
      · have hothers := Definition.findEntry_eq_none_iff.mp hnone
        have hboth := (List.forall₂_and_left _ _).mpr ⟨hothers, hfront⟩
        exact hboth.imp fun e e' h => h.2.cons h.1

/-- Every entry after a run is one that the domain had or one that a manager has added. -/
theorem of_mem (h : SettledBy ms d d') (hd : d.Unambiguous) (hn : (ms.map (·.driver.name)).Nodup)
    {e' : LabelEntry} (he : e' ∈ d'.entries) :
    (∃ e ∈ d.entries, Manager.Keeps ms e e') ∨
      ∃ m ∈ ms, m.policy.Completes (.implied m.driver.name) e' := by
  obtain ⟨kept, added, fresh, heq, hkept, hfresh, hadded⟩ := h.entries hd hn
  rw [heq] at he
  rcases List.mem_append.mp he with he | he
  · exact .inl (exists_of_mem_right hkept he)
  · obtain ⟨m, hm, hc⟩ := exists_of_mem_right hadded he
    exact .inr ⟨m, hfresh.subset hm, hc⟩

/-- A run adds no entries of unknown models. -/
theorem known (h : SettledBy ms d d') (hd : d.Unambiguous) (hn : (ms.map (·.driver.name)).Nodup)
    (hk : ∀ e ∈ d.entries, ∀ model, e.model = some model → ∃ m ∈ ms, m.driver.name = model) :
    ∀ e ∈ d'.entries, ∀ model, e.model = some model → ∃ m ∈ ms, m.driver.name = model := by
  intro e' he' model hmodel
  rcases h.of_mem hd hn he' with ⟨e, he, hkept⟩ | ⟨m, hm, hadded⟩
  · exact hk e he model (hkept.model ▸ hmodel)
  · rw [hadded.model] at hmodel
    exact ⟨m, hm, Option.some.inj hmodel⟩

/-- A run leaves no entry of a known model open. -/
theorem settled (h : SettledBy ms d d') (hd : d.Unambiguous)
    (hn : (ms.map (·.driver.name)).Nodup)
    (hk : ∀ e ∈ d.entries, ∀ model, e.model = some model → ∃ m ∈ ms, m.driver.name = model) :
    ∀ e ∈ d'.entries, e.model ≠ none → e.type ≠ .undecided := by
  intro e' he' hne
  rcases h.of_mem hd hn he' with ⟨e, he, hkept⟩ | ⟨m, hm, hadded⟩
  · cases hkept with
    | completed mem own done => exact done.type_ne
    | untouched foreign =>
      obtain ⟨model, hmodel⟩ := Option.ne_none_iff_exists'.mp hne
      obtain ⟨m, hm, hname⟩ := hk e' he model hmodel
      exact absurd (hname ▸ hmodel) (foreign m hm)
  · exact hadded.type_ne

end SettledBy

namespace Engine

variable {s : Engine} {id : ManagerId} {d : Definition}

/-- A run of the engine that succeeds is a run of steps that succeed. -/
theorem settledBy_generateEach {st st' : Stage} {ids : List ManagerId}
    (hr : s.SameRoles st.engine)
    (hs : ∀ n ∈ ids, ∃ m, s.manager? n = some m ∧ m.driver.FillsOwnEntry)
    (h : generateEach ids st = (.ok (), st')) :
    SettledBy (s.managersOf ids) st.definition st'.definition := by
  induction ids generalizing st with
  | nil =>
    obtain ⟨-, rfl⟩ := Prod.mk.inj h
    exact .nil _
  | cons n ids ih =>
    obtain ⟨m, hm, hf⟩ := hs n (List.mem_cons_self ..)
    obtain ⟨m', hm', hrole⟩ := hr.manager hm
    have hd := Manager.driver_of_role hrole
    obtain ⟨hok, hrest⟩ := generateEach_cons_ok h
    have hstep : StepEnds n m'.policy m'.driver.name st := stepEnds hm' (hd ▸ hf)
    rw [hd, Manager.policy_of_role hrole] at hstep
    rw [managersOf_cons hm]
    rcases hstep with ⟨-, hsettles⟩ | ⟨e, out, hg, -⟩
    · have hroles := hr.trans (sameRoles_generateOne n st)
      exact .cons hsettles (ih hroles (fun k hk => hs k (List.mem_cons_of_mem n hk)) hrest)
    · rw [hg] at hok
      cases hok

/-- The turn of one manager: it alone decides what entry of its model the domain ends up with. -/
theorem turn_of_generateEach {st' : Stage} {done later : List ManagerId} {n : ManagerId}
    (hs : ∀ k ∈ done ++ n :: later, ∃ m, s.manager? k = some m ∧ m.driver.FillsOwnEntry)
    (hnames : ((s.managersOf (done ++ n :: later)).map (·.driver.name)).Nodup)
    (h : generateEach (done ++ n :: later) ⟨s, d⟩ = (.ok (), st')) :
    ∃ m mid after, s.manager? n = some m ∧ generateEach done ⟨s, d⟩ = (.ok (), mid) ∧
      mid.definition.findEntry m.driver.name = d.findEntry m.driver.name ∧
      m.policy.Settles m.driver.name mid.definition after ∧
      st'.definition.findEntry m.driver.name = after.findEntry m.driver.name := by
  have hdone : ∀ k ∈ done, ∃ m, s.manager? k = some m ∧ m.driver.FillsOwnEntry :=
    fun k hk => hs k (List.mem_append_left _ hk)
  have hlater : ∀ k ∈ n :: later, ∃ m, s.manager? k = some m ∧ m.driver.FillsOwnEntry :=
    fun k hk => hs k (List.mem_append_right _ hk)
  obtain ⟨m, hm, -⟩ := hlater n (List.mem_cons_self ..)
  obtain ⟨mid, hrun, hrest⟩ := generateEach_append_ok h
  have hroles := sameRoles_generateEach done ⟨s, d⟩
  rw [hrun] at hroles
  have hbefore := settledBy_generateEach (.refl s) hdone hrun
  have hafter := settledBy_generateEach hroles hlater hrest
  rw [managersOf_append, managersOf_cons hm, List.map_append, List.map_cons] at hnames
  obtain ⟨-, hback, hapart⟩ := List.nodup_append.mp hnames
  rw [managersOf_cons hm] at hafter
  cases hafter with
  | @cons _ _ _ after _ step rest =>
    refine ⟨m, mid, after, hm, hrun, ?_, step, ?_⟩
    · refine hbefore.findEntry_of_foreign fun k hk heq => ?_
      exact hapart _ (List.mem_map_of_mem hk) _ (List.mem_cons_self ..) heq.symm
    · refine rest.findEntry_of_foreign fun k hk heq => ?_
      refine (List.nodup_cons.mp hback).1 ?_
      rw [heq]
      exact List.mem_map_of_mem hk

/-- What a generation by `ms` that succeeds makes of a definition. -/
structure Generated (ms : List Manager) (d d' : Definition) : Prop where
  /-- Nothing changes but the entries. -/
  rest : { d' with entries := d.entries } = d
  /-- The entries stay where they are. Some of the managers add one each, in their order. -/
  entries : ∃ kept added fresh, d'.entries = kept ++ added ∧
    List.Forall₂ (Manager.Keeps ms) d.entries kept ∧ List.Sublist fresh ms ∧
    List.Forall₂ (fun m e => m.policy.Completes (.implied m.driver.name) e) fresh added
  unambiguous : d'.Unambiguous
  /-- Every model is that of a manager. -/
  known : ∀ e ∈ d'.entries, ∀ model, e.model = some model → ∃ m ∈ ms, m.driver.name = model
  /-- No entry of a model is left open. -/
  settled : ∀ e ∈ d'.entries, e.model ≠ none → e.type ≠ .undecided
  /-- Managers that require confinement have it. -/
  confined : ∀ m ∈ ms, m.policy.requireConfined = true → d'.Confines m.driver.name

/-- A generation that succeeds follows the policies. A manager is left without an entry exactly if
it had none, makes no demands, and found other entries at its turn. -/
theorem generateLabels_success_follows_policies {st' : Stage}
    (hs : ∀ n ∈ s.nested id, ∃ m, s.manager? n = some m ∧ m.driver.FillsOwnEntry)
    (hnames : ((s.managersOf (s.nested id)).map (·.driver.name)).Nodup) (hd : d.Unambiguous)
    (h : generateLabels id ⟨s, d⟩ = (.ok (), st')) :
    Generated (s.managersOf (s.nested id)) d st'.definition ∧
    ∀ done n later, s.nested id = done ++ n :: later →
      ∃ m mid, s.manager? n = some m ∧ generateEach done ⟨s, d⟩ = (.ok (), mid) ∧
        (st'.definition.findEntry m.driver.name = none ↔
          d.findEntry m.driver.name = none ∧ m.policy.defaultConfined = false ∧
            m.policy.requireConfined = false ∧ mid.definition.entries ≠ []) := by
  rcases generateLabels_cases s id d with ⟨_, _, _, _, _, hg⟩ | ⟨hknown, hg⟩
  · rw [hg] at h
    cases h
  · rw [hg] at h
    have hrun := settledBy_generateEach (.refl s) hs h
    have hk : ∀ e ∈ d.entries, ∀ model, e.model = some model →
        ∃ m ∈ s.managersOf (s.nested id), m.driver.name = model := by
      intro e he model hmodel
      obtain ⟨n, hn, m, hm, hname⟩ := hknown e he model hmodel
      exact ⟨m, List.mem_filterMap.mpr ⟨n, hn, hm⟩, hname⟩
    refine ⟨⟨hrun.rest_eq, hrun.entries hd hnames, hrun.unambiguous hd, hrun.known hd hnames hk,
      hrun.settled hd hnames hk, ?_⟩, ?_⟩
    · intro m hm hreq
      obtain ⟨n, hn, hmn⟩ := List.mem_filterMap.mp hm
      obtain ⟨done, later, hids⟩ := List.append_of_mem hn
      rw [hids] at hs hnames h
      obtain ⟨m', mid, after, hm', -, -, step, hafter⟩ := turn_of_generateEach hs hnames h
      obtain rfl : m' = m := Option.some.inj (hm'.symm.trans hmn)
      unfold Definition.Confines
      rw [hafter]
      exact step.confines hreq
    · intro done n later hids
      rw [hids] at hs hnames h
      obtain ⟨m, mid, after, hm, hrun, hbefore, step, hafter⟩ := turn_of_generateEach hs hnames h
      refine ⟨m, mid, hm, hrun, ?_⟩
      rw [hafter, step.findEntry_eq_none_iff, hbefore]

/-- A stack of ownership, which requires confinement, of nothing, and of profiles. -/
def mixedHost : Engine where
  managers :=
    [some ⟨.dac, "qemu", { defaultConfined := true, requireConfined := true }, .dac {}⟩,
     some ⟨.none, "qemu", {}, .none⟩,
     some ⟨.apparmor, "qemu", {}, .apparmor []⟩,
     some ⟨.stack, "qemu", {}, .stack [0, 1, 2]⟩]
  held := [3]

/-- A guest with an open entry of one model. -/
def mixedGuest : Definition := .guest [.supplied "none" .undecided]

/-- Ownership has got its entry and profiles have not. -/
theorem generated_mixedHost :
    Generated (mixedHost.managersOf [0, 1, 2]) mixedGuest
      (generateLabels 3 ⟨mixedHost, mixedGuest⟩).2.definition ∧
    ∃ m mid, mixedHost.manager? 2 = some m ∧
      generateEach [0, 1] ⟨mixedHost, mixedGuest⟩ = (.ok (), mid) ∧
      ((generateLabels 3 ⟨mixedHost, mixedGuest⟩).2.definition.findEntry m.driver.name = none ↔
        mixedGuest.findEntry m.driver.name = none ∧ m.policy.defaultConfined = false ∧
          m.policy.requireConfined = false ∧ mid.definition.entries ≠ []) := by
  have hs : ∀ n ∈ mixedHost.nested 3,
      ∃ m, mixedHost.manager? n = some m ∧ m.driver.FillsOwnEntry := by
    intro n hn
    have hn : n ∈ [0, 1, 2] := hn
    simp only [List.mem_cons, List.not_mem_nil, or_false] at hn
    rcases hn with rfl | rfl | rfl <;>
      exact ⟨_, rfl, Driver.fillsOwnEntry_of_mem_workers (by simp [Driver.workers])⟩
  have hnames : ((mixedHost.managersOf (mixedHost.nested 3)).map (·.driver.name)).Nodup := by
    have h : (mixedHost.managersOf (mixedHost.nested 3)).map (·.driver.name) =
        ["dac", "none", "apparmor"] := rfl
    rw [h]
    decide
  have hd : mixedGuest.Unambiguous := by
    unfold Definition.Unambiguous
    decide
  have h : generateLabels 3 ⟨mixedHost, mixedGuest⟩ =
      (.ok (), (generateLabels 3 ⟨mixedHost, mixedGuest⟩).2) := by rfl
  obtain ⟨hgen, hturn⟩ := generateLabels_success_follows_policies hs hnames hd h
  exact ⟨hgen, hturn [0, 1] 2 [] rfl⟩

end Engine

end Confinement
