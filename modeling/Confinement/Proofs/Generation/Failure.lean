import Confinement.Proofs.Generation.Run

/-!
# A generation that fails

A generation stops at the first manager that fails. What it leaves behind is what the managers
before that one have made of the definition, to the last entry and field: the entry that the failing
manager had added is gone, and an entry that it had settled and its driver had written to is as it
was. No later manager is asked. Before any of this, an entry of a model that none of the managers
provides makes the generation fail at once.
-/

namespace Confinement.Engine

variable {s : Engine} {id : ManagerId} {d : Definition}

/-- A run that fails has succeeded with the managers before the one that fails. -/
theorem generateEach_error {st st' : Stage} {ids : List ManagerId} {e : Error}
    (hr : s.SameRoles st.engine)
    (hs : ∀ n ∈ ids, ∃ m, s.manager? n = some m ∧ m.driver.FillsOwnEntry)
    (h : generateEach ids st = (.error e, st')) :
    ∃ done n later m mid, ids = done ++ n :: later ∧ s.manager? n = some m ∧
      generateEach done st = (.ok (), mid) ∧ StepFails n m.policy m.driver.name mid e st' ∧
      st.engine.AskedToGenerate st'.engine (done ++ [n]) := by
  induction ids generalizing st with
  | nil => cases h
  | cons n ids ih =>
    obtain ⟨m, hm, hf⟩ := hs n (List.mem_cons_self ..)
    obtain ⟨m', hm', hrole⟩ := hr.manager hm
    have hd := Manager.driver_of_role hrole
    have hf' : m'.driver.FillsOwnEntry := hd ▸ hf
    have hasked := asked_generateOne hm' (Manager.members?_of_ne hf'.single)
    have hstep := stepEnds hm' hf'
    rw [hd, Manager.policy_of_role hrole] at hstep
    rcases hstep with ⟨hok, -⟩ | ⟨err, out, hg, hfails⟩
    · have hg : generateOne n st = (.ok (), (generateOne n st).2) := by rw [← hok]
      rw [generateEach, hg] at h
      obtain ⟨done, n', later, m₁, mid, hids, hm₁, hrun, hfails, hafter⟩ :=
        ih (hr.trans (sameRoles_generateOne n st)) (fun k hk => hs k (List.mem_cons_of_mem n hk)) h
      refine ⟨n :: done, n', later, m₁, mid, by rw [hids, List.cons_append], hm₁, ?_, hfails, ?_⟩
      · rw [generateEach, hg]
        exact hrun
      · exact hasked.trans hafter
    · rw [generateEach, hg] at h
      obtain ⟨rfl, rfl⟩ : err = e ∧ out = st' := by simpa using h
      rw [hg] at hasked
      exact ⟨[], n, ids, m, st, rfl, hm, rfl, hfails, hasked⟩

/-- A failed generation leaves exactly what the managers before the failing one have made of the
definition, and reports that one's own failure. -/
theorem generateLabels_failure_leaves_prefix {e : Error} {st' : Stage}
    (hs : ∀ n ∈ s.nested id, ∃ m, s.manager? n = some m ∧ m.driver.FillsOwnEntry)
    (h : generateLabels id ⟨s, d⟩ = (.error e, st')) :
    (∃ entry ∈ d.entries, ∃ model, entry.model = some model ∧
      (∀ n ∈ s.nested id, ∀ m, s.manager? n = some m → m.driver.name ≠ model) ∧
      e = .configUnsupported (.unknownModel model) ∧ st' = ⟨s, d⟩) ∨
    ((∀ entry ∈ d.entries, ∀ model, entry.model = some model →
      ∃ n ∈ s.nested id, ∃ m, s.manager? n = some m ∧ m.driver.name = model) ∧
    ∃ done n later m mid, s.nested id = done ++ n :: later ∧ s.manager? n = some m ∧
      generateEach done ⟨s, d⟩ = (.ok (), mid) ∧ st'.definition = mid.definition ∧
      StepFails n m.policy m.driver.name mid e st' ∧
      s.AskedToGenerate st'.engine (done ++ [n])) := by
  rcases generateLabels_cases s id d with
    ⟨entry, hentry, model, hmodel, hnone, hg⟩ | ⟨hknown, hg⟩
  · rw [hg, Prod.mk.injEq, Except.error.injEq] at h
    exact .inl ⟨entry, hentry, model, hmodel, hnone, h.1.symm, h.2.symm⟩
  · rw [hg] at h
    obtain ⟨done, n, later, m, mid, hids, hm, hrun, hfails, hasked⟩ :=
      generateEach_error (.refl s) hs h
    exact .inr ⟨hknown,
      done, n, later, m, mid, hids, hm, hrun, hfails.definition, hfails, hasked⟩

/-- A driver that writes a label into its entry and then fails. -/
def spoiler : Driver where
  name := "spoiler"
  technology := .bare
  initial := .none
  available _ := true
  hooks := {
    perform := fun _ op d =>
      if op = .generate then
        some (.error (.driver "spoiler" (.other "generate_label failed")),
          d.editEntry "spoiler" ({ · with label := some "partial" }))
      else none }

theorem spoiler_fillsOwnEntry : spoiler.FillsOwnEntry := by
  refine ⟨by decide, ?_, fun s _ => .refl _ s.definition⟩
  intro calls d d' r h
  simp only [spoiler, if_true, Option.some.injEq, Prod.mk.injEq] at h
  rw [← h.2]
  exact .of_edit fun e => ⟨some "partial", e.imageLabel, rfl⟩

def spoiledHost : Engine where
  managers :=
    [some ⟨.dac, "qemu", { defaultConfined := true }, .dac {}⟩,
     some ⟨spoiler, "qemu", { defaultConfined := true }, .none⟩,
     some ⟨.apparmor, "qemu", { defaultConfined := true }, .apparmor []⟩,
     some ⟨.stack, "qemu", {}, .stack [0, 1, 2]⟩]
  held := [3]

/-- A guest that leaves it to the policy how the spoiler labels it. -/
def spoiledGuest : Definition := .guest [.supplied "spoiler" .undecided]

/-- The spoiler's failure leaves the entry of the ownership and its own one as it was. -/
theorem generateLabels_spoiledHost :
    ∃ done n later mid, spoiledHost.nested 3 = done ++ n :: later ∧
      generateEach done ⟨spoiledHost, spoiledGuest⟩ = (.ok (), mid) ∧
      (generateLabels 3 ⟨spoiledHost, spoiledGuest⟩).2.definition = mid.definition ∧
      spoiledHost.AskedToGenerate (generateLabels 3 ⟨spoiledHost, spoiledGuest⟩).2.engine
        (done ++ [n]) := by
  have hs : ∀ n ∈ spoiledHost.nested 3,
      ∃ m, spoiledHost.manager? n = some m ∧ m.driver.FillsOwnEntry := by
    intro n hn
    have hn : n ∈ [0, 1, 2] := hn
    simp only [List.mem_cons, List.not_mem_nil, or_false] at hn
    rcases hn with rfl | rfl | rfl
    · exact ⟨_, rfl, Driver.fillsOwnEntry_of_mem_workers (by simp [Driver.workers])⟩
    · exact ⟨_, rfl, spoiler_fillsOwnEntry⟩
    · exact ⟨_, rfl, Driver.fillsOwnEntry_of_mem_workers (by simp [Driver.workers])⟩
  have h : generateLabels 3 ⟨spoiledHost, spoiledGuest⟩ =
      (.error (.driver "spoiler" (.other "generate_label failed")),
        (generateLabels 3 ⟨spoiledHost, spoiledGuest⟩).2) := by rfl
  rcases generateLabels_failure_leaves_prefix hs h with
    ⟨_, _, _, _, _, he, _⟩ | ⟨_, done, n, later, _, mid, hids, _, hrun, hd, _, hasked⟩
  · cases he
  · exact ⟨done, n, later, mid, hids, hrun, hd, hasked⟩

end Confinement.Engine
