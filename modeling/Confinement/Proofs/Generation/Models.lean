import Confinement.Proofs.Definition.Reading
import Confinement.Proofs.Generation.Abandoned

/-!
# The models of a definition's entries

Requests to managers of the built-in drivers write labels into entries that are there, and a
generation adds an entry only for a model that has none. So whatever is asked, in whatever order,
the entries of a definition keep their models, and new ones come behind them, one for each missing
model. Two entries of one model are there in the end exactly if the text of the definition has them.
-/

namespace Confinement

/-! ### Entries that come behind the others -/

namespace Definition

variable {d d' d'' : Definition}

/-- The entries keep their models, and one entry is added for each of some missing models. -/
def Gains (d d' : Definition) : Prop :=
  ∃ added : List String, d'.models = d.models ++ added.map some ∧ added.Nodup ∧
    ∀ model ∈ added, some model ∉ d.models

theorem Gains.of_models (h : d'.models = d.models) : d.Gains d' :=
  ⟨[], by simp [h], List.nodup_nil, nofun⟩

theorem Gains.refl (d : Definition) : d.Gains d := .of_models rfl

theorem Gains.trans (h : d.Gains d') (h' : d'.Gains d'') : d.Gains d'' := by
  obtain ⟨added, hmodels, hnodup, hnew⟩ := h
  obtain ⟨added', hmodels', hnodup', hnew'⟩ := h'
  rw [hmodels] at hnew' hmodels'
  refine ⟨added ++ added', ?_, List.nodup_append.mpr ⟨hnodup, hnodup', ?_⟩, ?_⟩
  · rw [hmodels', List.map_append, List.append_assoc]
  · rintro model hmodel _ hmodel' rfl
    exact hnew' model hmodel' (List.mem_append_right _ (List.mem_map_of_mem hmodel))
  · intro model hmodel
    rcases List.mem_append.mp hmodel with hmodel | hmodel
    · exact hnew model hmodel
    · exact fun h => hnew' model hmodel (List.mem_append_left _ h)

theorem unambiguous_iff_models : d.Unambiguous ↔ (d.models.filterMap id).Nodup := by
  rw [Unambiguous, models, List.filterMap_map]
  rfl

/-- Neither does an added entry repeat a model, nor does a repeated one go away. -/
theorem Gains.unambiguous_iff (h : d.Gains d') : d'.Unambiguous ↔ d.Unambiguous := by
  obtain ⟨added, hmodels, hnodup, hnew⟩ := h
  have hadded : (added.map some).filterMap id = added := by simp
  rw [unambiguous_iff_models, unambiguous_iff_models, hmodels, List.filterMap_append, hadded,
    List.nodup_append]
  refine ⟨fun h => h.1, fun h => ⟨h, hnodup, ?_⟩⟩
  rintro model hmodel _ hmodel' rfl
  obtain ⟨_, hmem, rfl⟩ := List.mem_filterMap.mp hmodel
  exact hnew model hmodel' hmem

theorem models_addEntry (d : Definition) (e : LabelEntry) :
    (d.addEntry e).models = d.models ++ [e.model] := by
  simp [models, addEntry]

theorem models_dropLastEntry (d : Definition) : d.dropLastEntry.models = d.models.dropLast := by
  simp [models, dropLastEntry]

/-- The models stay if one entry takes the place of another one of its model. -/
theorem models_setEntryAt {i : Nat} {e : LabelEntry} (h : d.models[i]? = some e.model) :
    (d.setEntryAt i e).models = d.models := by
  obtain ⟨hlt, heq⟩ := List.getElem?_eq_some_iff.mp h
  rw [models, setEntryAt, List.map_set, ← heq]
  exact List.set_getElem_self ..

theorem SameButLabels.models (h : d.SameButLabels d') : d'.models = d.models := by
  have hbare := congrArg (List.map LabelEntry.model) h.map_bare
  rwa [List.map_map, List.map_map] at hbare

end Definition

/-! ### Requests to one manager -/

/-- All open managers are of built-in drivers. -/
def Engine.BuiltIn (s : Engine) : Prop :=
  ∀ id m, s.manager? id = some m → m.driver ∈ Driver.builtIns

theorem Engine.BuiltIn.of_sameRoles {s t : Engine} (h : s.BuiltIn) (hr : s.SameRoles t) :
    t.BuiltIn := by
  intro id m hm
  have hrole := hr.role id
  rw [hm, Option.map_some] at hrole
  obtain ⟨m', hm', hsame⟩ := Option.map_eq_some_iff.mp hrole.symm
  rw [← Manager.driver_of_role hsame]
  exact h id m' hm'

namespace Driver

variable {dr : Driver}

theorem mem_builtIns_iff : dr ∈ builtIns ↔ dr ∈ workers ∨ dr = stack := by
  simp [builtIns, workers, or_assoc]

theorem hooks_of_mem_builtIns (h : dr ∈ builtIns) : dr.hooks = {} := by
  rcases mem_builtIns_iff.mp h with h | rfl
  · exact hooks_of_mem_workers h
  · rfl

/-- The technology of a built-in driver changes labels only. -/
theorem sameButLabels_perform (h : dr ∈ builtIns) {op : Operation} (hop : op.edits = true)
    {s : Scene} (hs : s.driver = dr.name) :
    s.definition.SameButLabels (dr.technology.perform op s).2.definition := by
  rcases mem_builtIns_iff.mp h with h | rfl
  · cases op with
    | generate => exact ((fillsOwnEntry_of_mem_workers h).technology s hs).sameButLabels
    | release => exact ((emptiesOwnEntry_of_mem_workers h).technology s hs).sameButLabels
    | _ => cases hop
  · exact .refl s.definition

end Driver

namespace Engine

variable {op : Operation} {st : Stage}

/-- To ask a manager changes labels only, if its members do no more. -/
theorem sameButLabels_visit (hb : st.engine.BuiltIn) (hop : op.edits = true) (id : ManagerId)
    {below : Option (Stage → Except Error Unit × Stage)}
    (hbelow : ∀ f, below = some f → ∀ st' : Stage, st'.engine.BuiltIn →
      st'.definition.SameButLabels (f st').2.definition) :
    st.definition.SameButLabels (st.visit op id below).2.definition := by
  unfold Stage.visit
  split
  · exact .refl st.definition
  · rename_i m hm
    have hbuilt := hb id m (manager_eq_ok_iff.mp hm)
    have hhooks : m.driver.hooks.perform st.engine.trace op st.definition = none := by
      rw [Driver.hooks_of_mem_builtIns hbuilt]
    split
    · exact .refl st.definition
    · simp only [hhooks]
      cases below with
      | some f => exact hbelow f rfl (st.record id m.driver op) hb
      | none =>
        dsimp only
        rw [Stage.definition_leave hop]
        exact Driver.sameButLabels_perform hbuilt hop rfl

/-- Whatever managers a request meets, it changes labels only. -/
theorem sameButLabels_perform (t : Tree) (hb : st.engine.BuiltIn) (hop : op.edits = true) :
    st.definition.SameButLabels (t.perform op st).2.definition := by
  induction t using Tree.inductionOn generalizing st with
  | leaf id =>
    rw [Tree.perform]
    exact sameButLabels_visit hb hop id fun f hf => by cases hf
  | stack id members ih =>
    rw [Tree.perform]
    refine sameButLabels_visit hb hop id ?_
    rintro f ⟨rfl⟩ st' hb'
    have hstep : ∀ t ∈ members, ∀ st : Stage, st.engine.BuiltIn →
        (t.perform op st).2.engine.BuiltIn ∧
          st.definition.SameButLabels (t.perform op st).2.definition :=
      fun t ht st hb => ⟨hb.of_sameRoles (t.sameRoles_perform op st), ih t ht hb⟩
    have hall := Tree.performAll_induction
      (R := fun st st' => st.engine.BuiltIn →
        st'.engine.BuiltIn ∧ st.definition.SameButLabels st'.definition)
      (fun st hb => ⟨hb, .refl st.definition⟩)
      (fun h h' hb => ⟨(h' (h hb).1).1, (h hb).2.trans (h' (h hb).1).2⟩) hstep st'
    exact (hall hb').2
  | endless id =>
    rw [Tree.perform]
    exact .refl st.definition

theorem models_edit {s : Engine} (hb : s.BuiltIn) (hop : op.edits = true) (id : ManagerId)
    (d : Definition) : (edit id op ⟨s, d⟩).2.definition.models = d.models :=
  (sameButLabels_perform (s.tree id) hb hop).models

/-! ### Generations -/

/-- A step keeps the models, or adds an entry for the model of its manager. -/
theorem gains_generateOne (hb : st.engine.BuiltIn) (id : ManagerId) :
    st.definition.Gains (generateOne id st).2.definition := by
  unfold generateOne
  split
  · exact .refl st.definition
  · rename_i m hm
    rcases m.policy.plan_cases m.driver.name st.definition with
      ⟨hp, -⟩ | ⟨i, e, hp, hl, -⟩ | ⟨hp, -⟩ | ⟨hp, hn, -⟩
    · rw [hp]
      exact .refl st.definition
    · -- The entry at its position has its type settled. After a failure the former one is back.
      obtain ⟨-, he, -⟩ := Definition.locateEntry_eq_some hl
      have hmodel : st.definition.models[i]? = some e.model := by
        rw [Definition.models, List.getElem?_map, he, Option.map_some]
      have hmodels : (edit id .generate ⟨st.engine,
          st.definition.setEntryAt i (m.policy.settle e)⟩).2.definition.models =
            st.definition.models := by
        rw [models_edit hb rfl, Definition.models_setEntryAt]
        rw [hmodel, Policy.model_settle]
      rw [hp]
      dsimp only
      cases hr : edit id .generate ⟨st.engine, st.definition.setEntryAt i (m.policy.settle e)⟩ with
      | mk r out =>
        rw [hr] at hmodels
        cases r with
        | ok u => exact .of_models hmodels
        | error err =>
          rw [he]
          refine .of_models ((Definition.models_setEntryAt ?_).trans hmodels)
          rw [hmodels, hmodel]
    · rw [hp]
      exact .refl st.definition
    · -- The new entry is the last one. After a failure it is taken away.
      have hmodels : (edit id .generate ⟨st.engine, st.definition.addEntry
          (m.policy.settle (.implied m.driver.name))⟩).2.definition.models =
            st.definition.models ++ [some m.driver.name] := by
        rw [models_edit hb rfl, Definition.models_addEntry, Policy.model_settle]
        rfl
      rw [hp]
      dsimp only
      cases hr : edit id .generate ⟨st.engine, st.definition.addEntry
          (m.policy.settle (.implied m.driver.name))⟩ with
      | mk r out =>
        rw [hr] at hmodels
        cases r with
        | ok u =>
          refine ⟨[m.driver.name], hmodels, by simp, fun model hmem hold => ?_⟩
          obtain rfl := List.mem_singleton.mp hmem
          obtain ⟨e, he, hmodel⟩ := List.mem_map.mp hold
          exact Definition.findEntry_eq_none_iff.mp hn e he hmodel
        | error err =>
          refine .of_models ?_
          rw [Definition.models_dropLastEntry, hmodels, List.dropLast_concat]

theorem gains_generateEach (hb : st.engine.BuiltIn) (ids : List ManagerId) :
    st.definition.Gains (generateEach ids st).2.definition := by
  induction ids generalizing st with
  | nil => exact .refl st.definition
  | cons id ids ih =>
    have hstep := gains_generateOne hb id
    have hroles := sameRoles_generateOne id st
    rw [generateEach]
    cases hr : generateOne id st with
    | mk r out =>
      rw [hr] at hstep hroles
      cases r with
      | ok u => exact hstep.trans (ih (hb.of_sameRoles hroles))
      | error e => exact hstep

theorem gains_generateLabels (hb : st.engine.BuiltIn) (id : ManagerId) :
    st.definition.Gains (generateLabels id st).2.definition := by
  unfold generateLabels
  dsimp only
  split
  · exact .refl st.definition
  · exact gains_generateEach hb _

end Engine

/-! ### Requests in any order -/

/-- A request about a definition, and the managers that are there when it is made. -/
inductive Labelling
  /-- Every manager that `id` stands for completes or adds its entry. -/
  | generateAll (s : Engine) (id : ManagerId)
  | generate (s : Engine) (id : ManagerId)
  | release (s : Engine) (id : ManagerId)

namespace Labelling

def engine : Labelling → Engine
  | generateAll s _ => s
  | generate s _ => s
  | release s _ => s

/-- What is left of the definition, whether the request succeeds or fails. -/
def apply (d : Definition) : Labelling → Definition
  | generateAll s id => (Engine.generateLabels id ⟨s, d⟩).2.definition
  | generate s id => (Engine.edit id .generate ⟨s, d⟩).2.definition
  | release s id => (Engine.edit id .release ⟨s, d⟩).2.definition

/-- The definition after several requests. -/
def applyAll (requests : List Labelling) (d : Definition) : Definition := requests.foldl apply d

theorem gains_apply {x : Labelling} (hb : x.engine.BuiltIn) (d : Definition) :
    d.Gains (x.apply d) := by
  cases x with
  | generateAll s id => exact Engine.gains_generateLabels hb id
  | generate s id => exact .of_models (Engine.models_edit hb rfl id d)
  | release s id => exact .of_models (Engine.models_edit hb rfl id d)

theorem gains_applyAll {requests : List Labelling} (hb : ∀ x ∈ requests, x.engine.BuiltIn)
    (d : Definition) : d.Gains (applyAll requests d) := by
  induction requests generalizing d with
  | nil => exact .refl d
  | cons x requests ih =>
    have hx := gains_apply (hb x (List.mem_cons_self ..)) d
    exact hx.trans (ih (fun y hy => hb y (List.mem_cons_of_mem x hy)) (x.apply d))

end Labelling

/-- The entries of a definition that is read have the models that its text names, in their order,
repeated ones included. Whatever labels are generated for it and released, its entries keep these
models, and one entry comes behind them for each of some models that the text does not name. So at
no time do two entries have one model, unless two entries of the text have it, and these stay. -/
theorem models_repeat_iff_text_repeats {format : DocumentFormat} {text : String} {d : Definition}
    (h : d.ReadFrom format text) {requests : List Labelling}
    (hb : ∀ x ∈ requests, x.engine.BuiltIn) :
    ∃ named, Definition.textModels? format text = some named ∧ d.models = named ∧
      (∃ added : List String, (Labelling.applyAll requests d).models = named ++ added.map some ∧
        added.Nodup ∧ ∀ model ∈ added, some model ∉ named) ∧
      ((Labelling.applyAll requests d).Unambiguous ↔ (named.filterMap id).Nodup) := by
  have hgains := Labelling.gains_applyAll hb d
  refine ⟨d.models, h.textModels?, rfl, hgains, ?_⟩
  rw [hgains.unambiguous_iff, Definition.unambiguous_iff_models]

/-- A guest whose text has two entries for its contexts. -/
def twiceText : String :=
  "\x7b\"name\": \"guest1\", \"uuid\": \"00000000-0000-0000-0000-000000000001\", " ++
    "\"seclabel\": [\x7b\"model\": \"selinux\"\x7d, \x7b\"model\": \"selinux\"\x7d]\x7d"

theorem models_twiceText : ∃ u d, Definition.ofText .json u twiceText = .ok d ∧
    d.models = [some "selinux", some "selinux"] := by
  let u : Uuid := ⟨List.replicate 32 0, List.length_replicate⟩
  have hread : (Definition.document? .json u twiceText).map Definition.models =
      some [some "selinux", some "selinux"] := by
    decide +kernel
  obtain ⟨d, hd, hmodels⟩ := Option.map_eq_some_iff.mp hread
  exact ⟨u, d, Definition.ofText_eq_ok_iff.mpr hd, hmodels⟩

/-- Both entries outlast a generation and a release. -/
theorem models_repeat_contextHost : ∃ d : Definition, d.ReadFrom .json twiceText ∧
    (∀ x ∈ [Labelling.generateAll contextHost 0, .release contextHost 0], x.engine.BuiltIn) ∧
    d.models = [some "selinux", some "selinux"] ∧
    ¬ (Labelling.applyAll [.generateAll contextHost 0, .release contextHost 0] d).Unambiguous := by
  obtain ⟨u, d, hd, hmodels⟩ := models_twiceText
  have hread : d.ReadFrom .json twiceText := .text hd
  have hb : ∀ x ∈ [Labelling.generateAll contextHost 0, .release contextHost 0],
      x.engine.BuiltIn := by
    have hhost : contextHost.BuiltIn := by
      intro id m hm
      obtain _ | id := id
      · obtain rfl := Option.some.inj hm
        exact Driver.mem_builtIns_iff.mpr (.inl (by simp [Driver.workers]))
      · cases hm
    intro x hx
    simp only [List.mem_cons, List.not_mem_nil, or_false] at hx
    rcases hx with rfl | rfl <;> exact hhost
  obtain ⟨named, -, rfl, -, hiff⟩ := models_repeat_iff_text_repeats hread hb
  refine ⟨d, hread, hb, hmodels, fun h => ?_⟩
  rw [hiff, hmodels] at h
  revert h
  decide

/-- Two entries of one model are read. -/
theorem repeated_model_is_read : ∃ u d,
    Definition.ofText .json u twiceText = .ok d ∧ ¬ d.Unambiguous := by
  obtain ⟨u, d, hd, hmodels⟩ := models_twiceText
  refine ⟨u, d, hd, ?_⟩
  rw [Definition.unambiguous_iff_models, hmodels]
  decide

end Confinement
