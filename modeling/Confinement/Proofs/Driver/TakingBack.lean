import Confinement.Proofs.Driver.Completion

/-!
# What the built-in drivers take back

To release a label the drivers of contexts and of profiles empty the first entry of their model, if
its label is one that they make up, and drop what they keep for it: the level in the label, or the
rules of the domain. The other drivers take nothing back.
-/

namespace Confinement

open Selinux (Levels Context heldLevel)

namespace Technology

/-- What a driver that has been opened keeps for a manager. -/
inductive Keeps : Technology → DriverState → Prop
  | nothing : Keeps .none .none
  | selinux (levels : Levels) : Keeps .selinux (.selinux levels)
  | dac (policy : OwnershipPolicy) : Keeps .dac (.dac policy)
  | apparmor (rules : AppArmor.Rules) : Keeps .apparmor (.apparmor rules)

variable {t : Technology} {e x : LabelEntry} {uuid : Uuid} {state state' : DriverState}

/-- What is kept stays of its kind. -/
theorem Fills.keeps (h : t.Fills uuid state e state' x) (hk : t.Keeps state) : t.Keeps state' := by
  rcases h.state_cases with rfl | ⟨rfl, -, levels, levels', rfl, rfl⟩
  · exact hk
  · exact .selinux levels'

instance (t : Technology) (e : LabelEntry) : Decidable (t.MakesOnce e) :=
  inferInstanceAs (Decidable ((t = .selinux ∨ t = .apparmor) ∧ e.type = .dynamic))

/-- What is left of an entry whose label is released. -/
def emptied (t : Technology) (e : LabelEntry) : LabelEntry := if t.MakesOnce e then e.bare else e

theorem emptied_of_makesOnce (h : t.MakesOnce e) : t.emptied e = e.bare := if_pos h

theorem emptied_of_not_makesOnce (h : ¬t.MakesOnce e) : t.emptied e = e := if_neg h

@[simp] theorem bare_emptied (t : Technology) (e : LabelEntry) : (t.emptied e).bare = e.bare := by
  unfold emptied
  split <;> rfl

theorem model_emptied (t : Technology) (e : LabelEntry) : (t.emptied e).model = e.model :=
  LabelEntry.model_of_bare (bare_emptied t e)

theorem makesOnce_emptied : t.MakesOnce (t.emptied e) ↔ t.MakesOnce e := by
  rw [MakesOnce, MakesOnce, LabelEntry.type_of_bare (bare_emptied t e)]

/-- What is empty is emptied no further. -/
@[simp] theorem emptied_emptied (t : Technology) (e : LabelEntry) :
    t.emptied (t.emptied e) = t.emptied e := by
  by_cases h : t.MakesOnce e
  · rw [emptied_of_makesOnce (makesOnce_emptied.mpr h), bare_emptied, emptied_of_makesOnce h]
  · rw [emptied_of_not_makesOnce (mt makesOnce_emptied.mp h)]

end Technology

/-- What is left of the first entry of a driver's model when its label is released. -/
def Definition.emptied (d : Definition) (dr : Driver) : Definition :=
  d.editEntry dr.name dr.technology.emptied

namespace Definition

variable {d : Definition} {dr : Driver}

theorem findEntry_emptied (d : Definition) (dr : Driver) :
    (d.emptied dr).findEntry dr.name = (d.findEntry dr.name).map dr.technology.emptied :=
  findEntry_editEntry dr.technology.model_emptied

theorem findEntry_emptied_of_ne {model : String} (h : model ≠ dr.name) :
    (d.emptied dr).findEntry model = d.findEntry model :=
  findEntry_editEntry_of_ne dr.technology.model_emptied h

theorem emptied_eq_self (h : ∀ e, d.findEntry dr.name = some e → ¬dr.technology.MakesOnce e) :
    d.emptied dr = d :=
  editEntry_self fun e he => Technology.emptied_of_not_makesOnce (h e he)

end Definition

/-- What is left of a manager's state when the label of a domain is released. -/
def DriverState.freed (d : Definition) : DriverState → DriverState
  | .selinux levels =>
    match heldLevel d with
    | .ok (some level) => .selinux (levels.erase level)
    | _ => .selinux levels
  | .apparmor rules => .apparmor (rules.release d.uuid)
  | state => state

@[simp] theorem DriverState.freed_none (d : Definition) : DriverState.none.freed d = .none := rfl

@[simp] theorem DriverState.freed_dac (d : Definition) (policy : OwnershipPolicy) :
    (DriverState.dac policy).freed d = .dac policy := rfl

@[simp] theorem DriverState.freed_apparmor (d : Definition) (rules : AppArmor.Rules) :
    (DriverState.apparmor rules).freed d = .apparmor (rules.release d.uuid) := rfl

namespace Selinux

variable {d c : Definition} {e : LabelEntry}

theorem heldLevel_congr (h : c.findEntry model = d.findEntry model) :
    heldLevel c = heldLevel d := by
  rw [heldLevel, heldLevel, h]

theorem heldLevel_of_missing (h : d.findEntry model = none) : heldLevel d = .ok none := by
  rw [heldLevel, h]

theorem heldLevel_of_ne (h : d.findEntry model = some e) (ht : e.type ≠ .dynamic) :
    heldLevel d = .ok none := by
  rw [heldLevel, h]
  exact if_neg ht

theorem heldLevel_of_not_dynamic (h : ∀ e, d.findEntry model = some e → e.type ≠ .dynamic) :
    heldLevel d = .ok none := by
  cases hf : d.findEntry model with
  | none => exact heldLevel_of_missing hf
  | some e => exact heldLevel_of_ne hf (h e hf)

theorem heldLevel_of_unlabelled (h : d.findEntry model = some e) (hl : e.label = none) :
    heldLevel d = .ok none := by
  rw [heldLevel, h]
  simp [hl]

theorem heldLevel_of_labelled (h : d.findEntry model = some e) (ht : e.type = .dynamic)
    {label : String} (hl : e.label = some label) :
    heldLevel d = (Context.parse label).map (·.level) := by
  rw [heldLevel, h]
  simp [ht, hl]

/-- A label that is filled in for a dynamic entry takes the next free level. -/
theorem reserveNext_of_fills {uuid : Uuid} {state state' : DriverState} {x : LabelEntry}
    (h : Technology.selinux.Fills uuid state e state' x) (ht : x.type = .dynamic) :
    ∃ levels level, state = .selinux levels ∧ state' = .selinux (levels.insert level) ∧
      levels.reserveNext = .ok (level, levels.insert level) ∧
      ∀ d : Definition, d.findEntry model = some x → heldLevel d = .ok (some level) := by
  rw [h.type] at ht
  cases h with
  | selinuxUnconfined type =>
    rw [type] at ht
    cases ht
  | selinuxStatic type labelled parsed =>
    rw [type] at ht
    cases ht
  | @selinuxDynamic levels levels' level _ base type unlabelled based free =>
    obtain ⟨-, rfl⟩ := Levels.reserveNext_eq_ok free
    have hwf := (wellFormed_of_baseContext based).withLevel (some level)
    refine ⟨levels, level, rfl, rfl, free, fun d hf => ?_⟩
    rw [heldLevel_of_labelled hf ht rfl, Context.parse_text hwf]
    rfl

/-- A label that is filled in for a dynamic entry holds a level that was free. -/
theorem heldLevel_of_fills {uuid : Uuid} {state state' : DriverState} {x : LabelEntry}
    (h : Technology.selinux.Fills uuid state e state' x) (ht : x.type = .dynamic)
    (hf : d.findEntry model = some x) :
    ∃ levels level, state = .selinux levels ∧ state' = .selinux (levels.insert level) ∧
      level ∉ levels ∧ heldLevel d = .ok (some level) := by
  obtain ⟨levels, level, hs, hs', hnext, hheld⟩ := reserveNext_of_fills h ht
  exact ⟨levels, level, hs, hs', (Levels.reserveNext_eq_ok hnext).1, hheld d hf⟩

/-- A level that was free is free again once it has been reserved and freed. -/
theorem Levels.erase_insert {levels : Levels} {level : String} (h : level ∉ levels) :
    (levels.insert level).erase level = levels := by
  refine Std.ExtHashSet.ext_mem fun l => ?_
  rw [Std.ExtHashSet.mem_erase, Std.ExtHashSet.mem_insert]
  by_cases hl : level = l
  · subst hl
    simp [h]
  · simp [hl]

/-- A domain whose label can be read gives its level and both labels back. -/
theorem release_eq {s : Scene} {levels : Levels} {held : Option String}
    (hs : s.state = .selinux levels) (hd : heldLevel s.definition = .ok held) :
    release s = (.ok (), { s with
      state := s.state.freed s.definition, definition := s.definition.emptied .selinux }) := by
  have hlevels : s.levels = .ok levels := Scene.levels_eq_ok_iff.mpr hs
  have hfreed : ∀ level, heldLevel s.definition = .ok (some level) →
      s.state.freed s.definition = .selinux (levels.erase level) := by
    intro level hheld
    simp only [hs, DriverState.freed, hheld]
  have hkept : heldLevel s.definition = .ok none → s.state.freed s.definition = s.state := by
    intro hheld
    simp only [hs, DriverState.freed, hheld]
  have hempty : ∀ e, s.findEntry model = some e → e.type = .dynamic →
      s.definition.editEntry model ({ · with label := none, imageLabel := none }) =
        s.definition.emptied .selinux := by
    intro e hf ht
    refine Definition.editEntry_congr fun e' he' => ?_
    obtain rfl := Option.some.inj (hf.symm.trans he')
    exact (Technology.emptied_of_makesOnce ⟨.inl rfl, ht⟩).symm
  have hsame : (∀ e, s.findEntry model = some e → e.type ≠ .dynamic) →
      s.definition.emptied .selinux = s.definition := fun hne =>
    Definition.emptied_eq_self fun e he hmakes => hne e he hmakes.2
  generalize hr : release s = out
  have hout := released s
  rw [hr] at hout
  cases hout with
  | missing found =>
    rw [hkept (heldLevel_of_missing found), hsame (by simp [found])]
  | fixed found type =>
    rw [hkept (heldLevel_of_ne found type), hsame (by simpa [found] using type)]
  | freed found type labelled parsed leveled kept =>
    obtain rfl := Except.ok.inj (hlevels.symm.trans kept)
    have hheld := heldLevel_of_labelled found type labelled
    rw [parsed, Except.map, leveled] at hheld
    rw [hfreed _ hheld, hempty _ found type]
  | @cleared e found type unleveled legible =>
    have hheld : heldLevel s.definition = .ok none := by
      cases hl : e.label with
      | none => exact heldLevel_of_unlabelled found hl
      | some label =>
        rw [heldLevel_of_labelled found type hl]
        cases hc : Context.parse label with
        | error err => exact absurd hc (legible label err hl)
        | ok c => rw [Except.map, unleveled label c hl hc]
    rw [hkept hheld, hempty e found type]
  | refused found type labelled failed =>
    rcases failed with failed | failed
    · rw [heldLevel_of_labelled found type labelled, failed] at hd
      cases hd
    · rw [hlevels] at failed
      cases failed

end Selinux

namespace Driver

variable {dr : Driver} {s : Scene}

/-- Whoever kept a state for the manager takes back what was made up for the domain, provided that
the level in the domain's context can be read. -/
theorem perform_release (hw : dr ∈ workers) (hk : dr.technology.Keeps s.state)
    {held : Option String} (hd : heldLevel s.definition = .ok held) :
    dr.technology.perform .release s = (.ok (), { s with
      state := s.state.freed s.definition, definition := s.definition.emptied dr }) := by
  simp only [workers, List.mem_cons, List.not_mem_nil, or_false] at hw
  rcases hw with rfl | rfl | rfl | rfl
  · obtain ⟨levels, hs⟩ : ∃ levels, s.state = .selinux levels := by
      generalize s.state = state at hk
      cases hk
      exact ⟨_, rfl⟩
    exact Selinux.release_eq hs hd
  · obtain ⟨rules, hs⟩ : ∃ rules, s.state = .apparmor rules := by
      generalize s.state = state at hk
      cases hk
      exact ⟨_, rfl⟩
    have hrules : s.rules = .ok rules := by rw [Scene.rules, hs]
    have hempty : AppArmor.unlabelled s.definition = s.definition.emptied apparmor := by
      refine Definition.editEntry_congr fun e _ => ?_
      change _ = Technology.apparmor.emptied e
      by_cases ht : e.type = .dynamic
      · rw [Technology.emptied_of_makesOnce ⟨.inr rfl, ht⟩, if_pos ht]
        rfl
      · rw [Technology.emptied_of_not_makesOnce fun h => ht h.2, if_neg ht]
    simp only [apparmor, Technology.perform, AppArmor.perform, hrules, Scene.after_ok, hs,
      DriverState.freed_apparmor]
    rw [hempty]
    rfl
  · have hempty : s.definition.emptied dac = s.definition :=
      Definition.emptied_eq_self fun e _ h => by simp [Technology.MakesOnce, dac] at h
    generalize hs : s.state = state at hk
    cases hk
    rw [hempty, DriverState.freed_dac, ← hs]
    rfl
  · have hempty : s.definition.emptied none = s.definition :=
      Definition.emptied_eq_self fun e _ h => by simp [Technology.MakesOnce, none] at h
    generalize hs : s.state = state at hk
    cases hk
    rw [hempty, DriverState.freed_none, ← hs]
    rfl

end Driver

end Confinement
