import Mathlib.Order.Defs.LinearOrder
import Confinement.Path

/-!
# The order of paths

Paths are compared by their components, the first difference deciding. The comparison is that of
lists in the order of their members, so it is transitive, and only spellings of one path are equal
in it.
-/

namespace Confinement.Path

namespace Component

/-- The text of a component that has one. -/
def text : Component → String
  | name s => s
  | _ => ""

/-- Components are ordered by rank, and names among each other by their texts. -/
theorem compare_eq_compareLex : compare = compareLex (compareOn rank) (compareOn text) := by
  funext c d
  cases c <;> cases d <;> simp [compare, compareLex, compareOn, rank, text] <;> rfl

instance : Std.TransCmp compare := by
  rw [compare_eq_compareLex]
  infer_instance

instance : Std.LawfulEqCmp compare where
  eq_of_compare {c d} h := by
    cases c <;> cases d <;> simp_all [compare, rank]

end Component

theorem compareComponents_eq : compareComponents = List.compareLex Component.compare := by
  funext cs ds
  induction cs generalizing ds with
  | nil => cases ds <;> rfl
  | cons c cs ih =>
    cases ds with
    | nil => rfl
    | cons d ds =>
      rw [compareComponents, List.compareLex_cons_cons, ih]
      cases c.compare d <;> rfl

variable {p q r : Path}

/-- The spellings of one path, and no others, are equal in the order. -/
theorem compare_eq_iff : p.compare q = .eq ↔ p.same q = true := by
  rw [compare, compareComponents_eq, Std.LawfulEqCmp.compare_eq_iff_eq, same_iff]

theorem compare_lt_trans (h : p.compare q = .lt) (h' : q.compare r = .lt) :
    p.compare r = .lt := by
  unfold compare at *
  rw [compareComponents_eq] at *
  exact Std.TransCmp.lt_trans h h'

theorem compare_gt_iff : p.compare q = .gt ↔ q.compare p = .lt := by
  unfold compare
  rw [compareComponents_eq]
  exact Std.OrientedCmp.gt_iff_lt

@[simp] theorem same_refl (p : Path) : p.same p = true := same_iff.mpr rfl

theorem same_comm : p.same q = q.same p := by
  rw [Bool.eq_iff_iff, same_iff, same_iff, eq_comm]

theorem same_congr (h : p.same q = true) (r : Path) : r.same p = r.same q := by
  rw [same, same, same_iff.mp h]

theorem compare_congr (h : p.same q = true) (r : Path) : p.compare r = q.compare r := by
  rw [compare, compare, same_iff.mp h]

theorem not_same_of_lt (h : p.compare q = .lt) : p.same q = false := by
  rw [Bool.eq_false_iff, ne_eq, ← compare_eq_iff, h]
  decide

end Confinement.Path
