import Confinement.Proofs.Manager.Release

/-!
# What is open is referred to

To let go of references closes every manager that nothing refers to any more, however deep it is in
stacks. There are enough steps for that: each of them uses up one reference, and a manager that
closes passes its own references on.
-/

namespace Confinement

/-- How many members all open managers have together. -/
def membersOf : List (Option Manager) → Nat
  | [] => 0
  | some m :: ms => m.state.members.length + membersOf ms
  | none :: ms => membersOf ms

/-- A manager that closes takes its references with it. -/
theorem membersOf_set {ms : List (Option Manager)} {n : Nat} {m : Manager}
    (h : ms[n]? = some (some m)) :
    m.state.members.length + membersOf (ms.set n none) = membersOf ms := by
  induction ms generalizing n with
  | nil => cases h
  | cons x ms ih =>
    cases n with
    | zero =>
      obtain rfl : x = some m := Option.some.inj h
      rfl
    | succ n =>
      have hrest := ih (n := n) h
      cases x with
      | none => exact hrest
      | some m' =>
        simp only [List.set_cons_succ, membersOf]
        omega

namespace Engine

variable {s : Engine} {id : ManagerId} {ids : List ManagerId}

/-- There are more steps than references. -/
theorem membersOf_lt_references (s : Engine) : membersOf s.managers < s.references := by
  unfold references
  induction s.managers with
  | nil => exact Nat.zero_lt_one
  | cons x ms ih =>
    cases x <;> simp only [membersOf, List.foldr_cons] <;> omega

/-- A caller has a handle to the manager, or it is a member of an open manager. -/
def Referred (s : Engine) (id : ManagerId) : Prop := id ∈ s.held ∨ ∃ a, s.Nests a id

theorem not_referred (h : s.refersTo id = false) : ¬s.Referred id := by
  rintro (hheld | ⟨a, ha⟩)
  · exact not_mem_held_of_refersTo h hheld
  · exact not_nests_of_refersTo h a ha

theorem referred_of_refersTo (h : s.refersTo id = true) : s.Referred id := by
  rcases Bool.or_eq_true_iff.mp h with hheld | hmember
  · exact .inl (List.contains_iff_mem.mp hheld)
  · obtain ⟨x, hx, hid⟩ := List.any_eq_true.mp hmember
    obtain ⟨a, ha⟩ := List.getElem?_of_mem hx
    cases x with
    | none => cases hid
    | some m =>
      exact .inr ⟨a, m, Option.join_eq_some_iff.mpr ha, List.contains_iff_mem.mp hid⟩

/-- Every open manager is referred to, but for those that a reference is still to be let go of. -/
def KeptFor (s : Engine) (ids : List ManagerId) : Prop :=
  ∀ id, s.IsOpen id → s.Referred id ∨ id ∈ ids

theorem KeptFor.close {m : Manager} {rest : List ManagerId} (h : s.KeptFor (id :: rest))
    (hm : s.manager? id = some m) :
    (s.close id m).KeptFor (m.state.members ++ rest) := by
  rintro n ⟨m', hm'⟩
  have hne : n ≠ id := by
    rintro rfl
    rw [manager?_close_self] at hm'
    cases hm'
  rw [manager?_close_of_ne hne] at hm'
  rcases h n ⟨m', hm'⟩ with (hheld | ⟨a, ha⟩) | hn
  · exact .inl (.inl hheld)
  · by_cases hid : a = id
    · obtain ⟨m₀, hm₀, hmem⟩ := ha
      obtain rfl := Option.some.inj (hm.symm.trans (hid ▸ hm₀))
      exact .inr (List.mem_append_left _ hmem)
    · exact .inl (.inr ⟨a, nests_close_iff.mpr ⟨hid, ha⟩⟩)
  · exact .inr (List.mem_append_right _ (List.mem_of_ne_of_mem hne hn))

theorem KeptFor.settle (fuel : Nat) (h : s.KeptFor ids)
    (hfuel : ids.length + membersOf s.managers ≤ fuel) : (s.settle fuel ids).KeptFor [] := by
  fun_induction Engine.settle fuel ids s with
  | case1 ids s =>
    obtain rfl : ids = [] := List.length_eq_zero_iff.mp (by omega)
    exact h
  | case2 => exact h
  | case3 fuel id rest s hm ih =>
    have hrest : s.KeptFor rest := by
      rintro n ⟨m, hn⟩
      have hne : n ≠ id := by
        rintro rfl
        cases hm.symm.trans hn
      exact (h n ⟨m, hn⟩).imp_right (List.mem_of_ne_of_mem hne)
    rw [List.length_cons] at hfuel
    exact ih hrest (by omega)
  | case4 fuel id rest s m hm href ih =>
    have hid : s.Referred id ∨ id ∈ rest := by
      rcases Bool.or_eq_true_iff.mp href with hreferred | hrest
      · exact .inl (referred_of_refersTo hreferred)
      · exact .inr (List.contains_iff_mem.mp hrest)
    have hrest : s.KeptFor rest := by
      intro n hn
      rcases h n hn with hreferred | hmem
      · exact .inl hreferred
      · rcases List.mem_cons.mp hmem with rfl | hmem
        · exact hid
        · exact .inr hmem
    rw [List.length_cons] at hfuel
    exact ih hrest (by omega)
  | case5 fuel id rest s m hm href closed ih =>
    -- The members of the closed manager are what its own reference is exchanged for.
    have hpassed : m.state.members.length + membersOf closed.managers = membersOf s.managers :=
      membersOf_set (Option.join_eq_some_iff.mp hm)
    refine ih (h.close hm) ?_
    rw [List.length_append]
    rw [List.length_cons] at hfuel
    omega

theorem KeptFor.drop (h : s.KeptFor []) (id : ManagerId) : (s.drop id).KeptFor [] := by
  have hpending : (s.unhold id).KeptFor [id] := by
    intro n hn
    rcases h n hn with (hheld | hmember) | hnil
    · by_cases heq : n = id
      · exact .inr (heq ▸ List.mem_cons_self ..)
      · exact .inl (.inl ((List.mem_erase_of_ne heq).mpr hheld))
    · exact .inl (.inr hmember)
    · cases hnil
  have hfuel : [id].length + membersOf (s.unhold id).managers ≤ (s.unhold id).references := by
    rw [List.length_singleton, Nat.add_comm]
    exact membersOf_lt_references (s.unhold id)
  exact hpending.settle _ hfuel

end Engine

end Confinement
