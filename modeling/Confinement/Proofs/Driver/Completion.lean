import Confinement.Proofs.Driver.OwnEntry
import Confinement.Proofs.Selinux.Exchange

/-!
# What the built-in drivers fill in

A driver that is asked for a label finds the first entry of its model with its type settled, and
either fills in both labels or fails and leaves everything as it was. What it fills in is a matter
of the entry, of what the driver keeps for the manager, and of the domain's UUID. Two drivers make
up the label of a dynamic entry only once: where they find a label there they fail.
-/

namespace Confinement

open Selinux (Levels Context)

/-! ### Taking over labels -/

namespace LabelEntry

theorem withLabels_of_bare {e x : LabelEntry} (h : x.bare = e.bare) :
    e.withLabels x.label x.imageLabel = x := by
  have hw := congrArg (·.withLabels x.label x.imageLabel) h
  exact hw.symm

theorem type_of_bare {e x : LabelEntry} (h : x.bare = e.bare) : x.type = e.type :=
  (congrArg LabelEntry.type h :)

theorem model_of_bare {e x : LabelEntry} (h : x.bare = e.bare) : x.model = e.model :=
  (congrArg LabelEntry.model h :)

end LabelEntry

namespace Definition

/-- The definition with the labels of `x` in the first entry of a model. -/
def fill (d : Definition) (model : String) (x : LabelEntry) : Definition :=
  d.editEntry model (·.withLabels x.label x.imageLabel)

variable {d : Definition} {model : String} {e x : LabelEntry}

theorem findEntry_fill (hf : d.findEntry model = some e) (h : x.bare = e.bare) :
    (d.fill model x).findEntry model = some x := by
  have hmodel : ∀ e : LabelEntry, (e.withLabels x.label x.imageLabel).model = e.model :=
    fun _ => rfl
  rw [fill, findEntry_editEntry hmodel, hf, Option.map_some, LabelEntry.withLabels_of_bare h]

theorem findEntry_fill_of_ne {other : String} (h : other ≠ model) :
    (d.fill model x).findEntry other = d.findEntry other :=
  findEntry_editEntry_of_ne (fun _ => rfl) h

/-- An edit that gives the entry the labels of `x`. -/
theorem editEntry_eq_fill {f : LabelEntry → LabelEntry} (hf : d.findEntry model = some e)
    (h : f e = e.withLabels x.label x.imageLabel) : d.editEntry model f = d.fill model x := by
  refine editEntry_congr fun e' he' => ?_
  obtain rfl := Option.some.inj (hf.symm.trans he')
  exact h

theorem editEntry_self {f : LabelEntry → LabelEntry}
    (h : ∀ e, d.findEntry model = some e → f e = e) : d.editEntry model f = d := by
  cases hl : d.locateEntry model with
  | none => exact editEntry_of_none (locateEntry_eq_none_iff.mp hl) f
  | some p =>
    obtain ⟨i, e⟩ := p
    obtain ⟨-, he, hf⟩ := locateEntry_eq_some hl
    obtain ⟨hlt, rfl⟩ := List.getElem?_eq_some_iff.mp he
    rw [editEntry_eq_setEntryAt hl, h _ hf]
    simp [setEntryAt]

theorem fill_self (hf : d.findEntry model = some e) : d.fill model e = d := by
  refine editEntry_self fun e' he' => ?_
  obtain rfl := Option.some.inj (hf.symm.trans he')
  exact e.withLabels_self

end Definition

/-! ### What is filled in -/

namespace Technology

/-- The driver makes up a label for the entry, and only if the entry has none. -/
def MakesOnce (t : Technology) (e : LabelEntry) : Prop :=
  (t = .selinux ∨ t = .apparmor) ∧ e.type = .dynamic

/-- A driver that keeps `state` for its manager fills in the labels of an entry, and keeps another
state then. -/
inductive Fills (uuid : Uuid) :
    Technology → DriverState → LabelEntry → DriverState → LabelEntry → Prop
  | nothing {state : DriverState} {e : LabelEntry} : Fills uuid .none state e state e
  | selinuxUnconfined {state : DriverState} {e : LabelEntry} (type : e.type = .unconfined) :
      Fills uuid .selinux state e state e
  /-- The image label follows the label, if there is none. -/
  | selinuxStatic {state : DriverState} {e : LabelEntry} {label : String} {c : Context}
      (type : e.type = .static) (labelled : e.label = some label)
      (parsed : Context.parse label = .ok c) :
      Fills uuid .selinux state e state
        (e.withLabels (some label) (e.imageLabel.or (some (Selinux.imageLabel c.level))))
  /-- The labels take the next free level. -/
  | selinuxDynamic {levels levels' : Levels} {level : String} {e : LabelEntry} {base : Context}
      (type : e.type = .dynamic) (unlabelled : e.label = .none)
      (based : Selinux.baseContext e = .ok base)
      (free : levels.reserveNext = .ok (level, levels')) :
      Fills uuid .selinux (.selinux levels) e (.selinux levels')
        (e.withLabels (some (base.withLevel (some level)).text)
          (some (Selinux.imageLabel (some level))))
  | dacUnconfined {policy : OwnershipPolicy} {e : LabelEntry} (type : e.type = .unconfined) :
      Fills uuid .dac (.dac policy) e (.dac policy) e
  | dacStatic {policy : OwnershipPolicy} {e : LabelEntry} {label : String} {owner : Ownership}
      (type : e.type = .static) (labelled : e.label = some label)
      (parsed : Ownership.parse label = .ok owner) :
      Fills uuid .dac (.dac policy) e (.dac policy)
        (e.withLabels (some label) (e.imageLabel.or (some label)))
  /-- The label is that of the manager's owner. The image label of an earlier run stays. -/
  | dacDynamic {policy : OwnershipPolicy} {e : LabelEntry} (type : e.type = .dynamic) :
      Fills uuid .dac (.dac policy) e (.dac policy)
        (e.withLabels (some policy.owner.label) (e.imageLabel.or (some policy.owner.label)))
  | apparmorUnconfined {state : DriverState} {e : LabelEntry} (type : e.type = .unconfined)
      (baseless : e.baseLabel = .none) : Fills uuid .apparmor state e state e
  | apparmorStatic {state : DriverState} {e : LabelEntry} (type : e.type = .static)
      (baseless : e.baseLabel = .none)
      (named : AppArmor.isProfileName (e.label.getD "") = true) :
      Fills uuid .apparmor state e state (e.withLabels e.label e.label)
  | apparmorDynamic {state : DriverState} {e : LabelEntry} (type : e.type = .dynamic)
      (baseless : e.baseLabel = .none) (unlabelled : e.label = .none) :
      Fills uuid .apparmor state e state
        (e.withLabels (some (AppArmor.generatedName uuid)) (some (AppArmor.generatedName uuid)))

namespace Fills

variable {t : Technology} {uuid : Uuid} {state state' : DriverState} {e x : LabelEntry}

/-- Nothing but the labels is filled in. -/
theorem bare (h : t.Fills uuid state e state' x) : x.bare = e.bare := by
  cases h <;> rfl

theorem type (h : t.Fills uuid state e state' x) : x.type = e.type :=
  LabelEntry.type_of_bare h.bare

/-- What is kept for the manager changes only with the level of a dynamic entry. -/
theorem state_cases (h : t.Fills uuid state e state' x) :
    state' = state ∨ (t = .selinux ∧ x.type = .dynamic ∧
      ∃ levels levels', state = .selinux levels ∧ state' = .selinux levels') := by
  cases h with
  | selinuxDynamic type unlabelled based free => exact .inr ⟨rfl, type, _, _, rfl, rfl⟩
  | _ => exact .inl rfl

theorem state_eq (h : t.Fills uuid state e state' x) (hx : ¬t.MakesOnce x) : state' = state := by
  rcases h.state_cases with heq | ⟨ht, htype, -⟩
  · exact heq
  · exact absurd ⟨.inl ht, htype⟩ hx

/-- A label that is made up was not there before, and is there then. -/
theorem made (h : t.Fills uuid state e state' x) (hx : t.MakesOnce x) :
    e.label = .none ∧ x.label ≠ .none := by
  obtain ⟨ht, htype⟩ := hx
  rw [h.type] at htype
  cases h with
  | nothing => simp at ht
  | selinuxUnconfined type => simp [type] at htype
  | selinuxStatic type labelled parsed => simp [type] at htype
  | selinuxDynamic type unlabelled based free => exact ⟨unlabelled, by simp [LabelEntry.withLabels]⟩
  | dacUnconfined type => simp at ht
  | dacStatic type labelled parsed => simp at ht
  | dacDynamic type => simp at ht
  | apparmorUnconfined type baseless => simp [type] at htype
  | apparmorStatic type baseless named => simp [type] at htype
  | apparmorDynamic type baseless unlabelled =>
    exact ⟨unlabelled, by simp [LabelEntry.withLabels]⟩

/-- To fill in an entry once more changes nothing, unless its label is made up only once. -/
theorem again (h : t.Fills uuid state e state' x) (hx : ¬t.MakesOnce x) :
    t.Fills uuid state' x state' x := by
  cases h with
  | nothing => exact .nothing
  | selinuxUnconfined type => exact .selinuxUnconfined type
  | @selinuxStatic _ _ label c type labelled parsed =>
    let x := e.withLabels (some label) (e.imageLabel.or (some (Selinux.imageLabel c.level)))
    have hagain : Technology.selinux.Fills uuid state x state
        (x.withLabels (some label) (x.imageLabel.or (some (Selinux.imageLabel c.level)))) :=
      .selinuxStatic type rfl parsed
    simpa [x, LabelEntry.withLabels] using hagain
  | selinuxDynamic type unlabelled based free => exact absurd ⟨.inl rfl, type⟩ hx
  | dacUnconfined type => exact .dacUnconfined type
  | @dacStatic policy _ label owner type labelled parsed =>
    let x := e.withLabels (some label) (e.imageLabel.or (some label))
    have hagain : Technology.dac.Fills uuid (.dac policy) x (.dac policy)
        (x.withLabels (some label) (x.imageLabel.or (some label))) :=
      .dacStatic type rfl parsed
    simpa [x, LabelEntry.withLabels] using hagain
  | @dacDynamic policy _ type =>
    let x := e.withLabels (some policy.owner.label) (e.imageLabel.or (some policy.owner.label))
    have hagain : Technology.dac.Fills uuid (.dac policy) x (.dac policy) (x.withLabels
        (some policy.owner.label) (x.imageLabel.or (some policy.owner.label))) := .dacDynamic type
    simpa [x, LabelEntry.withLabels] using hagain
  | apparmorUnconfined type baseless => exact .apparmorUnconfined type baseless
  | apparmorStatic type baseless named => exact .apparmorStatic type baseless named
  | apparmorDynamic type baseless unlabelled => exact absurd ⟨.inr rfl, type⟩ hx

end Fills

end Technology

/-! ### The drivers at work -/

section Requests

variable {s : Scene} {state : DriverState} {d : Definition} {e x : LabelEntry}

theorem Scene.levels_eq_ok_iff {levels : Levels} :
    s.levels = .ok levels ↔ s.state = .selinux levels := by
  unfold Scene.levels
  split <;> simp_all

theorem Scene.ownership_eq_ok_iff {policy : OwnershipPolicy} :
    s.ownership = .ok policy ↔ s.state = .dac policy := by
  unfold Scene.ownership
  split <;> simp_all

theorem Selinux.generate_of_fills (hf : s.findEntry model = some e)
    (h : Technology.selinux.Fills s.definition.uuid s.state e state x) :
    generate s = .ok (state, s.definition.fill model x) := by
  unfold generate
  generalize hs : s.state = kept at h ⊢
  rw [hf]
  cases h with
  | selinuxUnconfined type => simp only [type, Definition.fill_self hf]
  | selinuxStatic type labelled parsed =>
    simp only [type, labelled, parsed]
    refine congrArg (fun d => Except.ok (_, d)) (Definition.editEntry_eq_fill hf ?_)
    simp [LabelEntry.withLabels, labelled]
  | @selinuxDynamic levels _ _ _ _ type unlabelled based free =>
    have hlevels : s.levels = .ok levels := Scene.levels_eq_ok_iff.mpr hs
    simp only [type, unlabelled, based, hlevels, bind, Except.bind, free]
    exact congrArg (fun d => Except.ok (_, d)) (Definition.editEntry_eq_fill hf rfl)

theorem Selinux.fills_of_generate (hf : s.findEntry model = some e)
    (h : generate s = .ok (state, d)) :
    ∃ x, Technology.selinux.Fills s.definition.uuid s.state e state x := by
  unfold generate at h
  rw [hf] at h
  dsimp only at h
  cases ht : e.type with
  | undecided =>
    rw [ht] at h
    cases h
  | unconfined =>
    rw [ht] at h
    cases h
    exact ⟨e, .selinuxUnconfined ht⟩
  | static =>
    rw [ht] at h
    cases hl : e.label with
    | none =>
      rw [hl] at h
      cases h
    | some label =>
      rw [hl] at h
      obtain ⟨c, hparse, hc⟩ := bind_eq_ok_iff.mp h
      cases hc
      exact ⟨_, .selinuxStatic ht hl hparse⟩
  | dynamic =>
    rw [ht] at h
    cases hl : e.label with
    | some label =>
      rw [hl] at h
      cases h
    | none =>
      rw [hl] at h
      obtain ⟨base, hbase, h⟩ := bind_eq_ok_iff.mp h
      obtain ⟨levels, hlevels, h⟩ := bind_eq_ok_iff.mp h
      obtain ⟨⟨level, levels'⟩, hnext, h⟩ := bind_eq_ok_iff.mp h
      cases h
      rw [Scene.levels_eq_ok_iff.mp hlevels]
      exact ⟨_, .selinuxDynamic ht hl hbase hnext⟩

theorem Dac.generate_of_fills {policy : OwnershipPolicy} {uuid : Uuid}
    (hf : d.findEntry model = some e)
    (h : Technology.dac.Fills uuid (.dac policy) e state x) :
    state = .dac policy ∧ generate policy d = .ok (d.fill model x) := by
  rw [generate, hf]
  cases h with
  | dacUnconfined type => simp only [type, Definition.fill_self hf, and_self]
  | dacStatic type labelled parsed =>
    simp only [type, labelled, parsed]
    exact ⟨trivial, congrArg Except.ok (Definition.editEntry_eq_fill hf rfl)⟩
  | dacDynamic type =>
    simp only [type]
    exact ⟨trivial, congrArg Except.ok (Definition.editEntry_eq_fill hf rfl)⟩

theorem Dac.fills_of_generate {policy : OwnershipPolicy} {d' : Definition} (uuid : Uuid)
    (hf : d.findEntry model = some e) (h : generate policy d = .ok d') :
    ∃ x, Technology.dac.Fills uuid (.dac policy) e (.dac policy) x := by
  unfold generate at h
  rw [hf] at h
  dsimp only at h
  cases ht : e.type with
  | undecided =>
    rw [ht] at h
    cases h
  | unconfined => exact ⟨e, .dacUnconfined ht⟩
  | dynamic => exact ⟨_, .dacDynamic ht⟩
  | static =>
    rw [ht] at h
    cases hl : e.label with
    | none =>
      rw [hl] at h
      cases h
    | some label =>
      rw [hl] at h
      obtain ⟨owner, hparse, -⟩ := map_eq_ok_iff.mp h
      exact ⟨_, .dacStatic ht hl hparse⟩

theorem AppArmor.generate_of_fills {kept : DriverState} (hf : d.findEntry model = some e)
    (h : Technology.apparmor.Fills d.uuid kept e state x) :
    state = kept ∧ generate d = .ok (d.fill model x) := by
  rw [generate, hf]
  cases h with
  | apparmorUnconfined type baseless => simp [type, baseless, Definition.fill_self hf]
  | apparmorStatic type baseless named =>
    simp only [type, baseless, named, ne_eq, not_true_eq_false, if_false, if_true]
    exact ⟨trivial, congrArg Except.ok (Definition.editEntry_eq_fill hf rfl)⟩
  | apparmorDynamic type baseless unlabelled =>
    simp only [type, baseless, unlabelled, ne_eq, not_true_eq_false, if_false]
    exact ⟨trivial, congrArg Except.ok (Definition.editEntry_eq_fill hf rfl)⟩

theorem AppArmor.fills_of_generate {d' : Definition} (kept : DriverState)
    (hf : d.findEntry model = some e) (h : generate d = .ok d') :
    ∃ x, Technology.apparmor.Fills d.uuid kept e kept x := by
  unfold generate at h
  rw [hf] at h
  dsimp only at h
  by_cases hb : e.baseLabel = none
  · rw [if_neg (not_not_intro hb)] at h
    cases ht : e.type with
    | undecided =>
      rw [ht] at h
      cases h
    | unconfined => exact ⟨e, .apparmorUnconfined ht hb⟩
    | static =>
      rw [ht] at h
      dsimp only at h
      split at h
      · exact ⟨_, .apparmorStatic ht hb ‹_›⟩
      · cases h
    | dynamic =>
      rw [ht] at h
      cases hl : e.label with
      | some label =>
        rw [hl] at h
        cases h
      | none => exact ⟨_, .apparmorDynamic ht hb hl⟩
  · rw [if_pos hb] at h
    cases h

end Requests

namespace Driver

variable {dr : Driver} {s : Scene} {e x : LabelEntry} {state : DriverState}

theorem eq_selinux_of_technology (hw : dr ∈ workers) (ht : dr.technology = .selinux) :
    dr = selinux := by
  simp only [workers, List.mem_cons, List.not_mem_nil, or_false] at hw
  rcases hw with rfl | rfl | rfl | rfl
  · rfl
  all_goals cases ht

/-- The drivers of contexts and of profiles make up labels only once. -/
theorem makesOnce_iff (hw : dr ∈ workers) :
    dr.technology.MakesOnce e ↔ (dr = .selinux ∨ dr = .apparmor) ∧ e.type = .dynamic := by
  unfold Technology.MakesOnce
  refine and_congr_left' ?_
  simp only [workers, List.mem_cons, List.not_mem_nil, or_false] at hw
  constructor
  · intro ht
    rcases hw with rfl | rfl | rfl | rfl
    · exact .inl rfl
    · exact .inr rfl
    · simp [dac] at ht
    · simp [none] at ht
  · rintro (rfl | rfl)
    · exact .inl rfl
    · exact .inr rfl

/-- What can be filled in is filled in. -/
theorem perform_generate_of_fills (hw : dr ∈ workers) (hf : s.findEntry dr.name = some e)
    (h : dr.technology.Fills s.definition.uuid s.state e state x) :
    dr.technology.perform .generate s =
      (.ok (), { s with state, definition := s.definition.fill dr.name x }) := by
  simp only [workers, List.mem_cons, List.not_mem_nil, or_false] at hw
  rcases hw with rfl | rfl | rfl | rfl
  · have hg : Selinux.generate s = .ok (state, s.definition.fill selinux.name x) :=
      Selinux.generate_of_fills hf h
    simp only [selinux, Technology.perform, Selinux.perform, hg, Scene.after_ok]
  · obtain ⟨rfl, hg⟩ : state = s.state ∧
        AppArmor.generate s.definition = .ok (s.definition.fill apparmor.name x) :=
      AppArmor.generate_of_fills hf h
    simp only [apparmor, Technology.perform, AppArmor.perform, hg, Scene.define_ok]
  · obtain ⟨policy, hs⟩ : ∃ policy, s.state = .dac policy := by
      change Technology.dac.Fills s.definition.uuid s.state e state x at h
      generalize s.state = kept at h
      cases h <;> exact ⟨_, rfl⟩
    have howner : s.ownership = .ok policy := Scene.ownership_eq_ok_iff.mpr hs
    rw [hs] at h
    obtain ⟨rfl, hg⟩ : state = .dac policy ∧
        Dac.generate policy s.definition = .ok (s.definition.fill dac.name x) :=
      Dac.generate_of_fills hf h
    simp only [dac, Technology.perform, Dac.perform, howner, Scene.after_ok, hg, Scene.define_ok,
      ← hs]
  · change Technology.none.Fills s.definition.uuid s.state e state x at h
    have hself : s.definition.fill none.name e = s.definition := Definition.fill_self hf
    generalize hs : s.state = kept at h
    cases h
    rw [hself, ← hs]
    rfl

/-- A driver fills in the labels of a settled entry, or it fails and leaves everything as it was. -/
theorem perform_generate_cases (hw : dr ∈ workers) (hf : s.findEntry dr.name = some e) :
    (∃ state x, dr.technology.Fills s.definition.uuid s.state e state x ∧
      dr.technology.perform .generate s =
        (.ok (), { s with state, definition := s.definition.fill dr.name x })) ∨
    ∃ err, dr.technology.perform .generate s = (.error err, s) := by
  have hfilled : (∃ state x, dr.technology.Fills s.definition.uuid s.state e state x) ∨
      ∃ err, dr.technology.perform .generate s = (.error err, s) := by
    simp only [workers, List.mem_cons, List.not_mem_nil, or_false] at hw
    rcases hw with rfl | rfl | rfl | rfl
    · cases hg : Selinux.generate s with
      | error err =>
        exact .inr ⟨err, by simp only [selinux, Technology.perform, Selinux.perform, hg,
          Scene.after_error]⟩
      | ok p => exact .inl ⟨p.1, Selinux.fills_of_generate hf hg⟩
    · cases hg : AppArmor.generate s.definition with
      | error err =>
        exact .inr ⟨err, by simp only [apparmor, Technology.perform, AppArmor.perform, hg,
          Scene.define_error]⟩
      | ok d => exact .inl ⟨s.state, AppArmor.fills_of_generate s.state hf hg⟩
    · cases ho : s.ownership with
      | error err =>
        exact .inr ⟨err, by simp only [dac, Technology.perform, Dac.perform, ho,
          Scene.after_error]⟩
      | ok policy =>
        have hs := Scene.ownership_eq_ok_iff.mp ho
        cases hg : Dac.generate policy s.definition with
        | error err =>
          exact .inr ⟨err, by simp only [dac, Technology.perform, Dac.perform, ho, Scene.after_ok,
            hg, Scene.define_error]⟩
        | ok d =>
          rw [hs]
          exact .inl ⟨.dac policy, Dac.fills_of_generate s.definition.uuid hf hg⟩
    · exact .inl ⟨s.state, e, .nothing⟩
  rcases hfilled with ⟨state, x, h⟩ | herror
  · exact .inl ⟨state, x, h, perform_generate_of_fills hw hf h⟩
  · exact .inr herror

end Driver

end Confinement
