import Confinement.Proofs.Manager.Cycles

/-!
# Letting go of managers

A manager closes when nothing refers to it any more, and lets go of its own members. Whatever is
let go of, the managers that something still refers to stay as they are, and so does every cycle of
them: each manager of a cycle is a member of another one.
-/

namespace Confinement.Engine

open Relation (TransGen)

variable {s t u : Engine} {id : ManagerId} {m : Manager}

/-! ### Closing one manager -/

/-- The engine without a manager that was open. -/
def close (s : Engine) (id : ManagerId) (m : Manager) : Engine :=
  { s.record id m.driver .closing with managers := s.managers.set id none }

theorem manager?_close_self (s : Engine) (id : ManagerId) (m : Manager) :
    (s.close id m).manager? id = none := by
  by_cases hlt : id < s.managers.length <;> simp [manager?, close, hlt]

theorem manager?_close_of_ne {n : ManagerId} (h : n ≠ id) (s : Engine) (m : Manager) :
    (s.close id m).manager? n = s.manager? n := by
  unfold manager? close
  rw [List.getElem?_set_ne (Ne.symm h)]

theorem nests_close_iff {a b : ManagerId} :
    (s.close id m).Nests a b ↔ a ≠ id ∧ s.Nests a b := by
  unfold Nests
  by_cases ha : a = id
  · subst ha
    simp [manager?_close_self]
  · rw [manager?_close_of_ne ha]
    simp [ha]

theorem not_nests_of_refersTo (h : s.refersTo id = false) (a : ManagerId) : ¬s.Nests a id := by
  rintro ⟨m, hm, hmem⟩
  have hin : some m ∈ s.managers := List.mem_of_getElem? (Option.join_eq_some_iff.mp hm)
  have hany := (Bool.or_eq_false_iff.mp h).2
  rw [List.any_eq_false] at hany
  exact hany _ hin (List.contains_iff_mem.mpr hmem)

theorem not_mem_held_of_refersTo (h : s.refersTo id = false) : id ∉ s.held := by
  have hheld := (Bool.or_eq_false_iff.mp h).1
  simpa using hheld

/-! ### Letting go of references -/

/-- `t` is left of `s` once references have been let go of. -/
structure Released (s t : Engine) : Prop where
  held : t.held = s.held
  handles : ∀ n ∈ s.held, t.manager? n = s.manager? n
  members : ∀ a n, t.Nests a n → t.manager? n = s.manager? n
  closed : ∀ n m, t.manager? n = some m → s.manager? n = some m
  cycles : ∀ n, TransGen s.Nests n n → TransGen t.Nests n n

namespace Released

theorem refl (s : Engine) : s.Released s :=
  ⟨rfl, fun _ _ => rfl, fun _ _ _ => rfl, fun _ _ h => h, fun _ h => h⟩

theorem nests (h : s.Released t) {a b : ManagerId} (hab : t.Nests a b) : s.Nests a b := by
  obtain ⟨m, hm, hmem⟩ := hab
  exact ⟨m, h.closed a m hm, hmem⟩

theorem trans (h : s.Released t) (h' : t.Released u) : s.Released u where
  held := h'.held.trans h.held
  handles n hn := (h'.handles n (h.held ▸ hn)).trans (h.handles n hn)
  members a n hn := (h'.members a n hn).trans (h.members a n (h'.nests hn))
  closed n m hm := h.closed n m (h'.closed n m hm)
  cycles n hn := h'.cycles n (h.cycles n hn)

theorem acyclic_iff (h : s.Released t) : t.Acyclic ↔ s.Acyclic :=
  ⟨fun ht n hn => ht n (h.cycles n hn),
    fun hs n hn => hs n (TransGen.mono (fun _ _ => h.nests) n n hn)⟩

theorem sound (h : s.Released t) (hs : s.Sound) : t.Sound where
  held n hn := by
    rw [h.held] at hn
    rw [IsOpen, h.handles n hn]
    exact hs.held n hn
  members a n hn := by
    rw [IsOpen, h.members a n hn]
    exact hs.members a n (h.nests hn)

end Released

/-- A manager that nothing refers to can be closed. -/
theorem released_close (m : Manager) (h : s.refersTo id = false) : s.Released (s.close id m) where
  held := rfl
  handles n hn := by
    refine manager?_close_of_ne ?_ s m
    rintro rfl
    exact not_mem_held_of_refersTo h hn
  members a n hn := by
    refine manager?_close_of_ne ?_ s m
    rintro rfl
    exact not_nests_of_refersTo h a (nests_close_iff.mp hn).2
  closed n m' hm' := by
    by_cases hn : n = id
    · subst hn
      rw [manager?_close_self] at hm'
      cases hm'
    · rwa [manager?_close_of_ne hn] at hm'
  cycles n hn := by
    refine transGen_self_of_entered (fun a b c hab hbc => nests_close_iff.mpr ⟨?_, hbc⟩) hn
    rintro rfl
    exact not_nests_of_refersTo h a hab

theorem released_settle (fuel : Nat) (ids : List ManagerId) (s : Engine) :
    s.Released (s.settle fuel ids) := by
  fun_induction settle fuel ids s with
  | case1 => exact .refl _
  | case2 => exact .refl _
  | case3 fuel id rest s hm ih => exact ih
  | case4 fuel id rest s m hm href ih => exact ih
  | case5 fuel id rest s m hm href closed ih =>
    have hfree : s.refersTo id = false := by
      simp only [Bool.or_eq_true, not_or, Bool.not_eq_true] at href
      exact href.1
    exact (released_close m hfree).trans ih

/-- The engine without one of the caller's handles. -/
def unhold (s : Engine) (id : ManagerId) : Engine := { s with held := s.held.erase id }

theorem released_drop (id : ManagerId) (s : Engine) : (s.unhold id).Released (s.drop id) :=
  released_settle ..

theorem held_drop (id : ManagerId) (s : Engine) : (s.drop id).held = s.held.erase id :=
  (released_drop id s).held

/-- Managers that a handle is left for stay as they are. -/
theorem manager?_drop {n : ManagerId} (hn : n ∈ (s.drop id).held) :
    (s.drop id).manager? n = s.manager? n := by
  rw [held_drop] at hn
  exact (released_drop id s).handles n hn

end Confinement.Engine
