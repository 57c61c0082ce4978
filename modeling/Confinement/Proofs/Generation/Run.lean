import Confinement.Proofs.Generation.Step

/-!
# Runs of steps

A generation first looks for an entry of a model that no manager provides. If there is none, it has
its steps, one manager after the other, until one fails.
-/

namespace Confinement.Engine

variable {s : Engine} {id : ManagerId} {d : Definition} {st : Stage}

/-! ### One step after the other -/

theorem generateEach_append (ids ids' : List ManagerId) (st : Stage) :
    generateEach (ids ++ ids') st =
      match generateEach ids st with
      | (.ok (), st') => generateEach ids' st'
      | (.error e, st') => (.error e, st') := by
  induction ids generalizing st with
  | nil => rfl
  | cons id ids ih =>
    simp only [List.cons_append, generateEach]
    cases generateOne id st with
    | mk r st' =>
      cases r with
      | ok u => exact ih st'
      | error e => rfl

/-- A run that succeeds has succeeded with the managers up to any one of them. -/
theorem generateEach_append_ok {ids ids' : List ManagerId} {st' : Stage}
    (h : generateEach (ids ++ ids') st = (.ok (), st')) :
    ∃ mid, generateEach ids st = (.ok (), mid) ∧ generateEach ids' mid = (.ok (), st') := by
  rw [generateEach_append] at h
  cases hg : generateEach ids st with
  | mk r mid =>
    rw [hg] at h
    cases r with
    | ok u => exact ⟨mid, rfl, h⟩
    | error e => cases h

theorem generateEach_cons_ok {ids : List ManagerId} {st' : Stage}
    (h : generateEach (id :: ids) st = (.ok (), st')) :
    (generateOne id st).1 = .ok () ∧ generateEach ids (generateOne id st).2 = (.ok (), st') := by
  rw [generateEach] at h
  cases hg : generateOne id st with
  | mk r mid =>
    rw [hg] at h
    cases r with
    | ok u => exact ⟨rfl, h⟩
    | error e => cases h

theorem sameRoles_generateEach (ids : List ManagerId) (st : Stage) :
    st.engine.SameRoles (generateEach ids st).2.engine := by
  induction ids generalizing st with
  | nil => exact .refl st.engine
  | cons id ids ih =>
    have h := sameRoles_generateOne id st
    rw [generateEach]
    cases hg : generateOne id st with
    | mk r st' =>
      rw [hg] at h
      cases r with
      | ok u => exact h.trans (ih st')
      | error e => exact h

/-! ### Known models -/

/-- The managers with the given numbers. -/
def managersOf (s : Engine) (ids : List ManagerId) : List Manager := ids.filterMap s.manager?

theorem managersOf_cons {n : ManagerId} {m : Manager} (hm : s.manager? n = some m)
    (ids : List ManagerId) : s.managersOf (n :: ids) = m :: s.managersOf ids :=
  List.filterMap_cons_some hm

theorem managersOf_append (s : Engine) (ids ids' : List ManagerId) :
    s.managersOf (ids ++ ids') = s.managersOf ids ++ s.managersOf ids' :=
  List.filterMap_append ..

theorem provides_eq_true_iff {ids : List ManagerId} {model : String} :
    s.provides ids model = true ↔
      ∃ n ∈ ids, ∃ m, s.manager? n = some m ∧ m.driver.name = model := by
  simp [provides, Option.any_eq_true]

/-- A model that is found unknown belongs to an entry and to no manager. -/
theorem unknownModel?_eq_some {ids : List ManagerId} {model : String}
    (h : s.unknownModel? ids d = some model) :
    (∃ e ∈ d.entries, e.model = some model) ∧
      ∀ n ∈ ids, ∀ m, s.manager? n = some m → m.driver.name ≠ model := by
  have hmem := List.mem_of_find?_eq_some h
  have hnot := List.find?_some h
  refine ⟨List.mem_filterMap.mp hmem, ?_⟩
  intro n hn m hm hname
  have hp := provides_eq_true_iff.mpr ⟨n, hn, m, hm, hname⟩
  simp [hp] at hnot

theorem unknownModel?_eq_none {ids : List ManagerId} (h : s.unknownModel? ids d = none) :
    ∀ e ∈ d.entries, ∀ model, e.model = some model →
      ∃ n ∈ ids, ∃ m, s.manager? n = some m ∧ m.driver.name = model := by
  intro e he model hmodel
  have hall := List.find?_eq_none.mp h model (List.mem_filterMap.mpr ⟨e, he, hmodel⟩)
  exact provides_eq_true_iff.mp (by simpa using hall)

/-- A generation fails on an unknown model before anything is done, or it is a run of steps. -/
theorem generateLabels_cases (s : Engine) (id : ManagerId) (d : Definition) :
    (∃ entry ∈ d.entries, ∃ model, entry.model = some model ∧
      (∀ n ∈ s.nested id, ∀ m, s.manager? n = some m → m.driver.name ≠ model) ∧
      generateLabels id ⟨s, d⟩ = (.error (.configUnsupported (.unknownModel model)), ⟨s, d⟩)) ∨
    ((∀ entry ∈ d.entries, ∀ model, entry.model = some model →
      ∃ n ∈ s.nested id, ∃ m, s.manager? n = some m ∧ m.driver.name = model) ∧
      generateLabels id ⟨s, d⟩ = generateEach (s.nested id) ⟨s, d⟩) := by
  unfold generateLabels
  dsimp only
  cases hu : s.unknownModel? (s.nested id) d with
  | some model =>
    obtain ⟨⟨entry, hentry, hmodel⟩, hnone⟩ := unknownModel?_eq_some hu
    exact .inl ⟨entry, hentry, model, hmodel, hnone, rfl⟩
  | none => exact .inr ⟨unknownModel?_eq_none hu, rfl⟩

end Confinement.Engine
