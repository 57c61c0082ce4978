import Confinement.AppArmor.Rules
import Confinement.Proofs.Path.Order

/-!
# What the rules of a domain say about a path

To grant an access to a path, or to take the path away, changes what the rules say about the
spellings of this path, and nothing they say about other paths. Rules that are made in this way are
in the order of their paths, so no two of them are about the same path.
-/

namespace Confinement.AppArmor

namespace Grants

variable {grants : Grants} {path p : Path} {access a : Access}

theorem access?_nil (p : Path) : access? [] p = none := rfl

theorem access?_cons (q : Path) (b : Access) (grants : Grants) (p : Path) :
    access? ((q, b) :: grants) p = if p.same q then some b else access? grants p := by
  by_cases h : p.same q = true <;> simp [access?, h]

/-! ### Granting and taking away -/

theorem access?_insert (path : Path) (access : Access) (grants : Grants) (p : Path) :
    access? (insert path access grants) p =
      if p.same path then some access else access? grants p := by
  induction grants with
  | nil => rw [insert, access?_cons]
  | cons r rest ih =>
    obtain ⟨q, b⟩ := r
    cases h : path.compare q with
    | lt => simp only [insert, h, access?_cons]
    | eq =>
      have hq := Path.same_congr (Path.compare_eq_iff.mp h) p
      simp only [insert, h, access?_cons, hq]
      split <;> rfl
    | gt =>
      simp only [insert, h, access?_cons, ih]
      by_cases hp : p.same path = true
      · -- The rules before the place of the path are about other paths.
        have hq : p.same q = false := by
          rw [Bool.eq_false_iff, ne_eq, ← Path.compare_eq_iff, Path.compare_congr hp, h]
          decide
        simp [hp, hq]
      · simp [hp]

theorem access?_erase (path : Path) (grants : Grants) (p : Path) :
    access? (erase path grants) p = if p.same path then none else access? grants p := by
  unfold erase
  induction grants with
  | nil => simp [access?_nil]
  | cons r rest ih =>
    obtain ⟨q, b⟩ := r
    rw [List.filter_cons, access?_cons]
    by_cases hq : path.same q = true
    · have hp : p.same path = p.same q := Path.same_congr hq p
      simp only [hq, Bool.not_true, Bool.false_eq_true, if_false, ih, hp]
      split <;> rfl
    · simp only [hq, Bool.not_false, if_true, access?_cons, ih]
      by_cases hp : p.same path = true
      · have hpq : p.same q = false := by
          rw [Path.same_comm, Path.same_congr hp, Path.same_comm]
          simpa using hq
        simp [hp, hpq]
      · simp [hp]

/-! ### The order of the rules -/

/-- The rules stand in the order of their paths. -/
def Sorted (grants : Grants) : Prop := grants.Pairwise fun r r' => r.1.compare r'.1 = .lt

theorem sorted_nil : Sorted [] := List.Pairwise.nil

/-- Every rule is the one that is granted, or it was there before, if not with its access. -/
theorem exists_mem_of_mem_insert {r : Path × Access} (h : r ∈ insert path access grants) :
    r.1 = path ∨ ∃ b, (r.1, b) ∈ grants := by
  induction grants with
  | nil =>
    obtain rfl := List.mem_singleton.mp h
    exact .inl rfl
  | cons r' rest ih =>
    obtain ⟨q, b⟩ := r'
    rw [insert] at h
    split at h
    · rcases List.mem_cons.mp h with rfl | h
      · exact .inl rfl
      · exact .inr ⟨r.2, h⟩
    · rcases List.mem_cons.mp h with rfl | h
      · exact .inr ⟨b, List.mem_cons_self ..⟩
      · exact .inr ⟨r.2, List.mem_cons_of_mem _ h⟩
    · rcases List.mem_cons.mp h with rfl | h
      · exact .inr ⟨b, List.mem_cons_self ..⟩
      · rcases ih h with heq | ⟨c, hc⟩
        · exact .inl heq
        · exact .inr ⟨c, List.mem_cons_of_mem _ hc⟩

theorem Sorted.insert (h : grants.Sorted) (path : Path) (access : Access) :
    (Grants.insert path access grants).Sorted := by
  induction grants with
  | nil => exact List.pairwise_singleton ..
  | cons r rest ih =>
    obtain ⟨q, b⟩ := r
    obtain ⟨hfirst, hrest⟩ := List.pairwise_cons.mp h
    cases hc : path.compare q with
    | lt =>
      simp only [Grants.insert, hc]
      refine List.pairwise_cons.mpr ⟨fun r hr => ?_, h⟩
      rcases List.mem_cons.mp hr with rfl | hr
      · exact hc
      · exact Path.compare_lt_trans hc (hfirst r hr)
    | eq =>
      simp only [Grants.insert, hc]
      exact List.pairwise_cons.mpr ⟨hfirst, hrest⟩
    | gt =>
      simp only [Grants.insert, hc]
      refine List.pairwise_cons.mpr ⟨fun r hr => ?_, ih hrest⟩
      rcases exists_mem_of_mem_insert hr with heq | ⟨c, hmem⟩
      · rw [heq]
        exact Path.compare_gt_iff.mp hc
      · exact hfirst (r.1, c) hmem

theorem Sorted.erase (h : grants.Sorted) (path : Path) : (Grants.erase path grants).Sorted :=
  List.Pairwise.filter _ h

/-- No two rules are about the same path. -/
theorem Sorted.distinct (h : grants.Sorted) :
    grants.Pairwise fun r r' => r.1.same r'.1 = false :=
  List.Pairwise.imp Path.not_same_of_lt h

theorem access?_congr {q : Path} (h : p.same q = true) (grants : Grants) :
    access? grants p = access? grants q := by
  have hsame : ∀ r, p.same r = q.same r := by
    intro r
    rw [Path.same, Path.same, Path.same_iff.mp h]
  simp only [access?, hsame]

/-- The rules say of a path what the one rule about it says. -/
theorem Sorted.access?_eq_some_iff (h : grants.Sorted) :
    grants.access? p = some a ↔ ∃ r ∈ grants, p.same r.1 = true ∧ r.2 = a := by
  constructor
  · intro hp
    obtain ⟨r, hr, ha⟩ := Option.map_eq_some_iff.mp hp
    have hsame : p.same r.1 = true := by simpa using List.find?_some hr
    exact ⟨r, List.mem_of_find?_eq_some hr, hsame, ha⟩
  · rintro ⟨r, hr, hsame, rfl⟩
    rw [access?_congr hsame]
    induction grants with
    | nil => cases hr
    | cons r' rest ih =>
      obtain ⟨hfirst, hrest⟩ := List.pairwise_cons.mp h
      rw [access?_cons]
      rcases List.mem_cons.mp hr with rfl | hr
      · simp
      · have hne : r.1.same r'.1 = false := by
          rw [Path.same_comm]
          exact Path.not_same_of_lt (hfirst r hr)
        rw [hne, if_neg Bool.false_ne_true, ih hrest hr]

end Grants

end Confinement.AppArmor
