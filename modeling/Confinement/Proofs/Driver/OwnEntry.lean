import Confinement.Driver.Basic
import Confinement.Proofs.Definition.Entries
import Confinement.Proofs.Selinux.Outcomes

/-!
# Drivers that fill in their own entry

To generate a label a driver is given the whole definition, but it is asked to fill in one entry
only: the first one of its own model, and of that the two labels. What it does to them, and whether
it then succeeds, is up to the driver. The built-in drivers that do their own work keep to this.
-/

namespace Confinement

/-- Whether it succeeds or fails, the driver changes at most the labels of its own entry. -/
structure Driver.FillsOwnEntry (dr : Driver) : Prop where
  /-- The driver does its own work. -/
  single : dr.technology ≠ .stack
  hooks : ∀ (calls : List Call) (d d' : Definition) (r : Except Error Unit),
    dr.hooks.perform calls .generate d = some (r, d') → d.Relabelled dr.name d'
  technology : ∀ s : Scene, s.driver = dr.name →
    s.definition.Relabelled dr.name (dr.technology.perform .generate s).2.definition

/-- Completing a context entry sets its labels, with the level in both of a dynamic one. -/
theorem Selinux.relabelled_perform_generate (s : Scene) :
    s.definition.Relabelled model (perform .generate s).2.definition := by
  rcases perform_generate_cases s with ⟨e, hp⟩ | ⟨state, d, hc, hp⟩
  · rw [hp]
    exact .refl model s.definition
  · rw [hp]
    cases hc with
    | missing found => exact .refl model s.definition
    | unconfined found type => exact .refl model s.definition
    | static found type labelled parsed => exact .of_edit fun e => ⟨e.label, _, rfl⟩
    | dynamic found type unlabelled based kept free => exact .of_edit fun e => ⟨_, _, rfl⟩

/-- Completing an ownership entry sets its label, and its image label where there was none. -/
theorem Dac.relabelled_perform_generate (s : Scene) :
    s.definition.Relabelled model (perform .generate s).2.definition := by
  have hg : ∀ policy d, generate policy s.definition = .ok d → s.definition.Relabelled model d := by
    intro policy d h
    unfold generate at h
    split at h
    · cases h
      exact .refl model s.definition
    · split at h
      · split at h
        · cases h
        · obtain ⟨owner, -, rfl⟩ := map_eq_ok_iff.mp h
          exact .of_edit fun e => ⟨_, _, rfl⟩
      · cases h
        exact .of_edit fun e => ⟨_, _, rfl⟩
      · cases h
        exact .refl model s.definition
      · cases h
  unfold perform
  cases ho : s.ownership with
  | error e => exact .refl model s.definition
  | ok policy =>
    cases h : generate policy s.definition with
    | error e => simpa [h] using .refl model s.definition
    | ok d => simpa [h] using hg policy d h

/-- Completing a profile entry gives both labels the name of the profile. -/
theorem AppArmor.relabelled_perform_generate (s : Scene) :
    s.definition.Relabelled model (perform .generate s).2.definition := by
  have hg : ∀ d, generate s.definition = .ok d → s.definition.Relabelled model d := by
    intro d h
    unfold generate at h
    split at h
    · cases h
      exact .refl model s.definition
    · split at h
      · cases h
      · dsimp only at h
        split at h
        · split at h
          · cases h
            exact .of_edit fun e => ⟨_, _, rfl⟩
          · cases h
        · split at h
          · cases h
          · cases h
            exact .of_edit fun e => ⟨_, _, rfl⟩
        · cases h
          exact .refl model s.definition
        · cases h
  unfold perform
  cases h : generate s.definition with
  | error e => simpa [h] using .refl model s.definition
  | ok d => simpa [h] using hg d h

namespace Driver

/-- The built-in drivers that do their own work. -/
def workers : List Driver := [selinux, apparmor, dac, none]

theorem fillsOwnEntry_of_mem_workers {dr : Driver} (h : dr ∈ workers) : dr.FillsOwnEntry := by
  simp only [workers, List.mem_cons, List.not_mem_nil, or_false] at h
  rcases h with rfl | rfl | rfl | rfl
  · exact ⟨by decide, by simp [selinux], fun s _ => Selinux.relabelled_perform_generate s⟩
  · exact ⟨by decide, by simp [apparmor], fun s _ => AppArmor.relabelled_perform_generate s⟩
  · exact ⟨by decide, by simp [dac], fun s _ => Dac.relabelled_perform_generate s⟩
  · exact ⟨by decide, by simp [none], fun s _ => .refl _ s.definition⟩

end Driver

end Confinement
